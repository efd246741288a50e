/-
  The primitive types of the Kafka protocol on the wire (`Kafka.Protocol.Wire`,
  `Kafka.Protocol.Wire.Primitives`): strings, bytes, arrays and tagged fields,
  plain and compact.

  A poke gives the bytes that it writes; a peek takes the bytes up to the end of
  the buffer, and gives back those that it leaves.
-/
import Wireform.AssocMap
import Wireform.Numerals

namespace Wireform.Kafka.Wire

abbrev Bytes := List UInt8

abbrev Text := String

inductive WireError where
  | wireTruncated (msg : String)
  | wireInvalid (msg : String)
  /-- `decodeUtf8` throws. -/
  | unicodeException
  deriving DecidableEq, Repr

abbrev Poke (α : Type) := α → Bytes

abbrev Peek (α : Type) := Bytes → Except WireError (α × Bytes)

def ensureBytes (bs : Bytes) (n : Nat) (what : String) : Except WireError Unit :=
  if n ≤ bs.length then .ok () else .error (.wireTruncated ("ran off end while reading " ++ what))

/-! ## Integers -/

/-- `fromIntegral` to a signed integer of `w` bytes. -/
def toSigned (w : Nat) (n : Int) : Int := n.bmod (256 ^ w)

def pokeIntBE (w : Nat) : Poke Int := fun i => (leBytes w (i % (256 ^ w : Nat)).toNat).reverse

def peekIntBE (w : Nat) (what : String) : Peek Int := fun bs => do
  ensureBytes bs w what
  return (toSigned w (leValue (bs.take w).reverse), bs.drop w)

def pokeInt16BE : Poke Int := pokeIntBE 2

def peekInt16BE : Peek Int := peekIntBE 2 "Int16"

def pokeInt32BE : Poke Int := pokeIntBE 4

def peekInt32BE : Peek Int := peekIntBE 4 "Int32"

theorem shiftRight_lt {v : UInt32} (h : ¬ v < 0x80) : (v >>> 7).toNat < v.toNat := by
  have h128 : 128 ≤ v.toNat := UInt32.le_iff_toNat_le.1 (UInt32.not_lt.1 h)
  rw [UInt32.toNat_shiftRight, Nat.shiftRight_eq_div_pow]
  exact Nat.div_lt_self (by omega) (by decide)

def pokeUVarInt (v : UInt32) : Bytes :=
  if v < 0x80 then [v.toUInt8] else ((v &&& 0x7F) ||| 0x80).toUInt8 :: pokeUVarInt (v >>> 7)
termination_by v.toNat
decreasing_by exact shiftRight_lt ‹_›

/-- The loop of `peekUVarIntSlow`. -/
def peekUVarIntSlow.go : Bytes → Nat → UInt32 → Except WireError (UInt32 × Bytes)
  | bs, shift, acc =>
    if shift > 28 then .error (.wireInvalid "UVarInt longer than 5 bytes")
    else
      match bs with
      | [] => .error (.wireTruncated "ran off end while reading UVarInt")
      | b :: next =>
        let v := acc ||| ((b &&& 0x7F).toUInt32 <<< UInt32.ofNat shift)
        if b &&& 0x80 = 0 then .ok (v, next) else go next (shift + 7) v

def peekUVarIntSlow (b0 : UInt8) : Peek UInt32 := fun cur => peekUVarIntSlow.go cur 7 (b0 &&& 0x7F).toUInt32

def peekUVarInt : Peek UInt32
  | [] => .error (.wireTruncated "ran off end while reading UVarInt")
  | b0 :: next => if b0 &&& 0x80 = 0 then .ok (b0.toUInt32, next) else peekUVarIntSlow b0 next

def peekByteString (n : Nat) (what : String) : Peek Bytes := fun bs => do
  ensureBytes bs n what
  return (bs.take n, bs.drop n)

/-! ## Strings and bytes -/

inductive Nullable (α : Type) where
  | null
  | notNull (a : α)
  deriving DecidableEq, Repr

abbrev KafkaString := Nullable Text

abbrev CompactString := Nullable Text

abbrev KafkaBytes := Nullable Bytes

abbrev CompactBytes := Nullable Bytes

abbrev KafkaArray (α : Type) := Nullable (List α)

def encodeUtf8 (t : Text) : Bytes := t.toUTF8.data.toList

def decodeUtf8 (bs : Bytes) : Except WireError Text :=
  match String.fromUTF8? ⟨bs.toArray⟩ with
  | some t => .ok t
  | none => .error .unicodeException

def sizeOfText (t : Text) : Nat := (encodeUtf8 t).length

def kafkaStringMaxSize : KafkaString → Nat
  | .null => 2
  | .notNull t => 2 + 4 * 1 * sizeOfText t

def pokeKafkaString : Poke KafkaString
  | .null => pokeInt16BE (-1)
  | .notNull t => pokeInt16BE (toSigned 2 (encodeUtf8 t).length) ++ encodeUtf8 t

def peekKafkaString : Peek KafkaString := fun bs => do
  let (len, p1) ← peekInt16BE bs
  if len < 0 then return (.null, p1)
  else
    let (bs, p2) ← peekByteString len.toNat "raw bytes" p1
    let t ← decodeUtf8 bs
    return (.notNull t, p2)

def compactStringMaxSize : CompactString → Nat
  | .null => 1
  | .notNull t => 5 + sizeOfText t

def pokeCompactString : Poke CompactString
  | .null => pokeUVarInt 0
  | .notNull t => pokeUVarInt (UInt32.ofNat (encodeUtf8 t).length + 1) ++ encodeUtf8 t

def peekCompactString : Peek CompactString := fun bs => do
  let (len, p1) ← peekUVarInt bs
  if len = 0 then return (.null, p1)
  else
    let (bs, p2) ← peekByteString (len.toNat - 1) "raw bytes" p1
    let t ← decodeUtf8 bs
    return (.notNull t, p2)

def kafkaBytesMaxSize : KafkaBytes → Nat
  | .null => 4
  | .notNull bs => 4 + bs.length

def pokeKafkaBytes : Poke KafkaBytes
  | .null => pokeInt32BE (-1)
  | .notNull bs => pokeInt32BE (toSigned 4 bs.length) ++ bs

def peekKafkaBytes : Peek KafkaBytes := fun bs => do
  let (len, p1) ← peekInt32BE bs
  if len < 0 then return (.null, p1)
  else
    let (bs, p2) ← peekByteString len.toNat "raw bytes" p1
    return (.notNull bs, p2)

def compactBytesMaxSize : CompactBytes → Nat
  | .null => 1
  | .notNull bs => 5 + bs.length

def pokeCompactBytes : Poke CompactBytes
  | .null => pokeUVarInt 0
  | .notNull bs => pokeUVarInt (UInt32.ofNat bs.length + 1) ++ bs

def peekCompactBytes : Peek CompactBytes := fun bs => do
  let (len, p1) ← peekUVarInt bs
  if len = 0 then return (.null, p1)
  else
    let (bs, p2) ← peekByteString (len.toNat - 1) "raw bytes" p1
    return (.notNull bs, p2)

/-! A field of a message is compact from a version on, its threshold. -/

def pokeVersionedString (version threshold : Int) : Poke KafkaString :=
  if version ≥ threshold then pokeCompactString else pokeKafkaString

def peekVersionedString (version threshold : Int) : Peek KafkaString :=
  if version ≥ threshold then peekCompactString else peekKafkaString

def pokeVersionedBytes (version threshold : Int) : Poke KafkaBytes :=
  if version ≥ threshold then pokeCompactBytes else pokeKafkaBytes

def peekVersionedBytes (version threshold : Int) : Peek KafkaBytes :=
  if version ≥ threshold then peekCompactBytes else peekKafkaBytes

def dualStringMaxSize : KafkaString → Nat
  | .null => 2
  | .notNull t => 5 + sizeOfText t

def dualBytesMaxSize : KafkaBytes → Nat
  | .null => 4
  | .notNull bs => 5 + bs.length

/-! ## Arrays -/

section
variable {α : Type}

def compactArrayHeaderMaxSize : Nat := 5

/-- The loop of `replicateMVec`. -/
def replicateMVec.loop (peekElt : Peek α) : Nat → Peek (List α)
  | 0, cur => .ok ([], cur)
  | n + 1, cur => do
    let (x, cur) ← peekElt cur
    let (xs, cur) ← loop peekElt n cur
    return (x :: xs, cur)

def replicateMVec (n : Nat) (peekElt : Peek α) : Peek (List α) := fun p =>
  if n > p.length then
    .error (.wireTruncated ("array of " ++ toString n ++ " elements in " ++ toString p.length ++ " bytes"))
  else replicateMVec.loop peekElt n p

/-- The elements of a non-nullable array. -/
def Nullable.elements : KafkaArray α → List α
  | .null => []
  | .notNull v => v

def pokeKafkaArray (pokeElt : Poke α) : Poke (KafkaArray α) := fun arr =>
  pokeInt32BE (toSigned 4 arr.elements.length) ++ arr.elements.flatMap pokeElt

def peekKafkaArray (peekElt : Peek α) : Peek (KafkaArray α) := fun p => do
  let (n, p1) ← peekInt32BE p
  if n < 0 then return (.notNull [], p1)
  else
    let (v, p2) ← replicateMVec n.toNat peekElt p1
    return (.notNull v, p2)

def pokeCompactArray (pokeElt : Poke α) : Poke (KafkaArray α) := fun arr =>
  pokeUVarInt (UInt32.ofNat (arr.elements.length + 1)) ++ arr.elements.flatMap pokeElt

def peekCompactArray (peekElt : Peek α) : Peek (KafkaArray α) := fun p => do
  let (lenPlus1, p1) ← peekUVarInt p
  if lenPlus1 = 0 then return (.notNull [], p1)
  else
    let (v, p2) ← replicateMVec (lenPlus1.toNat - 1) peekElt p1
    return (.notNull v, p2)

def pokeNullableKafkaArray (pokeElt : Poke α) : Poke (KafkaArray α)
  | .null => pokeInt32BE (-1)
  | .notNull v => pokeInt32BE (toSigned 4 v.length) ++ v.flatMap pokeElt

def peekNullableKafkaArray (peekElt : Peek α) : Peek (KafkaArray α) := fun p => do
  let (n, p1) ← peekInt32BE p
  if n < 0 then return (.null, p1)
  else
    let (v, p2) ← replicateMVec n.toNat peekElt p1
    return (.notNull v, p2)

def pokeNullableCompactArray (pokeElt : Poke α) : Poke (KafkaArray α)
  | .null => pokeUVarInt 0
  | .notNull v => pokeUVarInt (UInt32.ofNat (v.length + 1)) ++ v.flatMap pokeElt

def peekNullableCompactArray (peekElt : Peek α) : Peek (KafkaArray α) := fun p => do
  let (lenPlus1, p1) ← peekUVarInt p
  if lenPlus1 = 0 then return (.null, p1)
  else
    let (v, p2) ← replicateMVec (lenPlus1.toNat - 1) peekElt p1
    return (.notNull v, p2)

def pokeVersionedArray (version threshold : Int) (pokeElt : Poke α) : Poke (KafkaArray α) :=
  if version ≥ threshold then pokeCompactArray pokeElt else pokeKafkaArray pokeElt

def peekVersionedArray (version threshold : Int) (peekElt : Peek α) : Peek (KafkaArray α) :=
  if version ≥ threshold then peekCompactArray peekElt else peekKafkaArray peekElt

def pokeVersionedNullableArray (version threshold : Int) (pokeElt : Poke α) : Poke (KafkaArray α) :=
  if version ≥ threshold then pokeNullableCompactArray pokeElt else pokeNullableKafkaArray pokeElt

def peekVersionedNullableArray (version threshold : Int) (peekElt : Peek α) : Peek (KafkaArray α) :=
  if version ≥ threshold then peekNullableCompactArray peekElt else peekNullableKafkaArray peekElt

end

/-! ## Tagged fields -/

/-- A `Word32`, as the key of a map. -/
abbrev Tag := Fin UInt32.size

def pokeTaggedFieldEntry : Poke (Tag × Bytes) := fun (tag, payload) =>
  pokeUVarInt (UInt32.ofFin tag) ++ pokeUVarInt (UInt32.ofNat payload.length) ++ payload

def pokeTaggedFieldEntries : Poke (List (Tag × Bytes)) := fun entries =>
  pokeUVarInt (UInt32.ofNat entries.length) ++ entries.flatMap pokeTaggedFieldEntry

/-- The loop of `peekTaggedFieldsMap`. -/
def peekTaggedFieldsMap.go : Nat → Bytes → AssocMap Tag Bytes → Except WireError (AssocMap Tag Bytes × Bytes)
  | 0, cur, acc => .ok (acc, cur)
  | k + 1, cur, acc => do
    let (tag, cur1) ← peekUVarInt cur
    let (sz, cur2) ← peekUVarInt cur1
    let (payload, cur3) ← peekByteString sz.toNat "tagged-field payload" cur2
    go k cur3 (AssocMap.insert tag.toFin payload acc)

def peekTaggedFieldsMap : Peek (AssocMap Tag Bytes) := fun p => do
  let (n, p') ← peekUVarInt p
  peekTaggedFieldsMap.go n.toNat p' []

end Wireform.Kafka.Wire

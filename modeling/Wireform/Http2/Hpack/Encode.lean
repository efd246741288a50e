/-
  Encoding header blocks (`Network.HTTP2.HPACK.Encode`).
-/
import Wireform.Http2.Hpack.Table

namespace Wireform.Http2.Hpack

structure EncodeStrategy where
  useHuffman : Bool
  useDynamicTable : Bool
  deriving DecidableEq, Repr

def defaultEncodeStrategy : EncodeStrategy where
  useHuffman := true
  useDynamicTable := true

/-! ## Integers -/

/-- Seven bits at a time, the low ones first. -/
def encodeContinuation (value : UInt64) : ByteString :=
  if value < 128 then [value.toUInt8]
  else ((value &&& 0x7F).toUInt8 ||| 0x80) :: encodeContinuation (value >>> 7)
termination_by value.toNat
decreasing_by
  rename_i h
  have h128 : 128 ≤ value.toNat := UInt64.le_iff_toNat_le.1 (UInt64.not_lt.1 h)
  rw [UInt64.toNat_shiftRight, Nat.shiftRight_eq_div_pow]
  exact Nat.div_lt_self (by omega) (by decide)

/-- The largest value of `n` bits. -/
def prefixMask (n : Nat) : UInt64 := (1 <<< UInt64.ofNat n) - 1

/-- An integer with a prefix of `n` bits, below the bits of `pre`. -/
def encodeInteger (n : Nat) (pre : UInt8) (value : UInt64) : ByteString :=
  if value < prefixMask n then [pre ||| value.toUInt8]
  else (pre ||| (prefixMask n).toUInt8) :: encodeContinuation (value - prefixMask n)

/-! ## Headers -/

def encodeStringLiteral (huff : Bool) (bs : ByteString) : ByteString :=
  match huff with
  | false => encodeInteger 7 0x00 (UInt64.ofNat bs.length) ++ bs
  | true => encodeInteger 7 0x80 (UInt64.ofNat (huffmanEncode bs).length) ++ huffmanEncode bs

def encodeIndexed (idx : Int) : ByteString := encodeInteger 7 0x80 (UInt64.ofInt idx)

/-- A literal header: a representation with `n` bits of index, below `pre`. -/
def encodeLiteral (n : Nat) (pre : UInt8) (midx : Option Int) (name value : ByteString) (huff : Bool) :
    ByteString :=
  match midx with
  | some idx => encodeInteger n pre (UInt64.ofInt idx) ++ encodeStringLiteral huff value
  | none => [pre] ++ encodeStringLiteral huff name ++ encodeStringLiteral huff value

def encodeLiteralIncremental : Option Int → ByteString → ByteString → Bool → ByteString :=
  encodeLiteral 6 0x40

def encodeLiteralNoIndex : Option Int → ByteString → ByteString → Bool → ByteString :=
  encodeLiteral 4 0x00

/-- Encode a header: its bytes, and the table after it. -/
def encodeHeader (strategy : EncodeStrategy) (dt : DynamicTable) (hdr : Header) :
    ByteString × DynamicTable :=
  match lookupNameValue dt hdr with
  | some (idx, true) => (encodeIndexed idx, dt)
  | some (idx, false) =>
    if strategy.useDynamicTable then
      (encodeLiteralIncremental (some idx) hdr.1 hdr.2 strategy.useHuffman, insertEntry dt hdr)
    else (encodeLiteralNoIndex (some idx) hdr.1 hdr.2 strategy.useHuffman, dt)
  | none =>
    if strategy.useDynamicTable then
      (encodeLiteralIncremental none hdr.1 hdr.2 strategy.useHuffman, insertEntry dt hdr)
    else (encodeLiteralNoIndex none hdr.1 hdr.2 strategy.useHuffman, dt)

/-- Encode a list of headers. -/
def encodeHeaderBlock (strategy : EncodeStrategy) (dt : DynamicTable) :
    List Header → ByteString × DynamicTable
  | [] => ([], dt)
  | hdr :: headers =>
    let r := encodeHeader strategy dt hdr
    let rs := encodeHeaderBlock strategy r.2 headers
    (r.1 ++ rs.1, rs.2)

end Wireform.Http2.Hpack

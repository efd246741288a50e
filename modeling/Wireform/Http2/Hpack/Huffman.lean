/-
  The HPACK Huffman coder (`Network.HTTP2.HPACK.Huffman` over
  `cbits/hpack_huffman.c`).

  The encoder keeps a 64-bit buffer and writes whole bytes from it; the decoder
  runs a table-driven automaton on the two halves of every byte.
-/
import Wireform.Http2.Hpack.HuffmanTable

namespace Wireform.Http2.Hpack

abbrev ByteString := List UInt8

/-- Errors of header decoding (`Network.HTTP2.HPACK.Types`). -/
inductive DecodeError where
  | indexOutOfRange (idx : Int)
  | invalidHuffmanEncoding
  | integerOverflow
  | invalidTableSizeUpdate (size : Int)
  | headerBlockTruncated
  deriving DecidableEq, Repr

/-! ## Encoding -/

/-- The code word of a byte. -/
def huffSym (b : UInt8) : HuffSym := huffEncodeTable.getD b.toNat ⟨0, 0⟩

/-- Write the whole bytes of the bit buffer, and give the bits that are left. -/
def writeBytes (bits nbits : Nat) : List UInt8 × Nat :=
  if 8 ≤ nbits then
    let r := writeBytes bits (nbits - 8)
    (UInt8.ofNat (bits >>> (nbits - 8)) :: r.1, r.2)
  else ([], nbits)
termination_by nbits

/-- The loop of `wireform_hpack_huffman_encode`. -/
def huffmanEncode.go : ByteString → Nat → Nat → List UInt8
  | [], bits, nbits =>
    if 0 < nbits then [UInt8.ofNat ((bits <<< (8 - nbits)) ||| ((1 <<< (8 - nbits)) - 1))] else []
  | b :: src, bits, nbits =>
    let bits := ((bits <<< (huffSym b).bits) ||| (huffSym b).code) % 2 ^ 64
    let r := writeBytes bits (nbits + (huffSym b).bits)
    r.1 ++ go src (bits &&& ((1 <<< r.2) - 1)) r.2

def huffmanEncode (bs : ByteString) : ByteString :=
  if bs = [] then [] else huffmanEncode.go bs 0 0

/-! ## Decoding -/

/-- The entry of the decode table for a state and four bits. -/
def huffEntry (state nibble : Nat) : DecodeEntry :=
  (huffDecodeTable.getD state []).getD nibble ⟨0x100, 0, 0⟩

/-- Read four bits: the next state, the flags, and what was written so far;
    `none` for an invalid encoding or a full buffer. -/
def readNibble (dstCap state nibble : Nat) (dst : ByteString) : Option (Nat × Nat × ByteString) :=
  let e := huffEntry state nibble
  if e.flags &&& 2 ≠ 0 ∧ dst.length ≥ dstCap then none
  else if e.fstate = 0x100 then none
  else some (e.fstate, e.flags, if e.flags &&& 2 ≠ 0 then dst ++ [UInt8.ofNat e.sym] else dst)

/-- The loop of `wireform_hpack_huffman_decode`. -/
def huffmanDecode.go (dstCap : Nat) : ByteString → Nat → Nat → ByteString → Option ByteString
  | [], _, flags, dst => if flags &&& 1 ≠ 0 then some dst else none
  | byte :: src, state, _, dst =>
    match readNibble dstCap state (byte.toNat >>> 4) dst with
    | none => none
    | some (state, _, dst) =>
      match readNibble dstCap state (byte.toNat &&& 0x0F) dst with
      | none => none
      | some (state, flags, dst) => go dstCap src state flags dst

def huffmanDecode (bs : ByteString) : Except DecodeError ByteString :=
  if bs = [] then .ok []
  else
    match huffmanDecode.go (bs.length * 2 + 256) bs 0 1 [] with
    | some dst => .ok dst
    | none => .error .invalidHuffmanEncoding

end Wireform.Http2.Hpack

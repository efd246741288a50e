/-
  The ways to make a split-block bloom filter (`Parquet.BloomFilter`).

  * `newSbbfChecked`, `newSbbfBytesChecked`, `newSbbfFromBytesChecked`: from a size, from
    words and from raw bytes;
  * `SbbfBuilder`, `buildSbbfChecked`: one mutable bitset for all hashes;
  * `encodeBloomFilter`, `decodeBloomFilter`: with a header in front;
  * `Made`: the filters that come out of any mix of these, with their hashes;
  * `sbbf_faithful`: no filter forgets.

  The Thrift codec of the header is a parameter.
-/
import Wireform.Parquet.BloomFilter
import Wireform.Proto.VarintEncode

namespace Wireform.Parquet.BloomFilter

open Proto (getVarintLazy getVarintLazy_leb128 zigZag32 unZigZag32 unZigZag32_zigZag32)

/-! ## Sizes

Where a size is divided it is at least a block, so `quot` and `rem` are `/` and `%`. -/

def blockBytes : Int := 32

def roundUpBlock (n : Int) : Int :=
  let r := n % blockBytes
  if r = 0 then n else n + (blockBytes - r)

def normalisedBitsetSize (bytes : Int) : Except String Int :=
  if bytes > largestBitset then
    .error "Parquet.BloomFilter: requested bitset exceeds the signed 32-bit wire limit"
  else .ok (roundUpBlock (max blockBytes bytes))

def sbbfBytes (sbbf : Sbbf) : Nat := sbbf.sbbfBlocks * 32

def newSbbfBytesChecked (nb : Int) (bitsetWords : List UInt64) : Except String Sbbf :=
  if hb : nb < blockBytes ∨ nb % blockBytes ≠ 0 ∨ nb > largestBitset then
    .error "Parquet.BloomFilter: bitset size must be a positive multiple of 32 within the signed 32-bit wire limit"
  else if hw : bitsetWords ≠ [] ∧ bitsetWords.length ≠ (nb / 8).toNat then
    .error "Parquet.BloomFilter: decoded word count does not match bitset size"
  else .ok
    { sbbfBlocks := (nb / blockBytes).toNat
      sbbfData := if bitsetWords = [] then List.replicate (nb / 8).toNat 0 else bitsetWords
      positive := by
        unfold blockBytes at *
        omega
      size := by
        unfold blockBytes at *
        split_ifs with h
        · rw [List.length_replicate]
          omega
        · have := not_and.1 hw h
          omega
      bounded := by
        unfold blockBytes at *
        unfold largestBitset at *
        omega }

attribute [grind =] newSbbfBytesChecked

def newSbbfChecked (numBytes : Int) : Except String Sbbf := do
  let nb ← normalisedBitsetSize numBytes
  newSbbfBytesChecked nb []

def readLE64 (bs : List UInt8) (off : Nat) : UInt64 :=
  let rd := fun i => (bs.getD (off + i) 0).toUInt64
  rd 0 ||| rd 1 <<< 8 ||| rd 2 <<< 16 ||| rd 3 <<< 24 ||| rd 4 <<< 32 ||| rd 5 <<< 40 ||| rd 6 <<< 48 ||| rd 7 <<< 56

def parseBitset (bs : List UInt8) : List UInt64 := (List.range (bs.length / 8)).map fun i => readLE64 bs (i * 8)

def newSbbfFromBytesChecked (bytes : List UInt8) : Except String Sbbf :=
  let nb : Int := bytes.length
  if nb < blockBytes ∨ nb % blockBytes ≠ 0 ∨ nb > largestBitset then
    .error "Parquet.BloomFilter: raw bitset size must be a positive multiple of 32 within the signed 32-bit wire limit"
  else newSbbfBytesChecked nb (parseBitset bytes)

/-! ## The builder -/

structure SbbfBuilder where
  builderBlocks : Nat
  builderData : List UInt64

def sbbfBuilderInsertHash (builder : SbbfBuilder) (hash : UInt64) : SbbfBuilder :=
  { builder with
    builderData := updateBlock builder.builderData (blockIndex hash builder.builderBlocks) hash.toUInt32 }

/-- What a callback that inserts these hashes leaves. -/
def runBuilder (builder : SbbfBuilder) (hashes : List UInt64) : SbbfBuilder :=
  hashes.foldl sbbfBuilderInsertHash builder

@[simp] theorem runBuilder_length (builder : SbbfBuilder) (hashes : List UInt64) :
    (runBuilder builder hashes).builderData.length = builder.builderData.length := by
  induction hashes generalizing builder with
  | nil => rfl
  | cons h hs ih => exact (ih (sbbfBuilderInsertHash builder h)).trans (length_updateBlock _ _ _)

theorem normalisedBitsetSize_ok {bytes nb : Int} (h : normalisedBitsetSize bytes = .ok nb) :
    32 ≤ nb ∧ nb % 32 = 0 ∧ nb ≤ largestBitset := by
  unfold normalisedBitsetSize at h
  split_ifs at h with hsize
  have hnb := Except.ok.inj h
  unfold roundUpBlock blockBytes at hnb
  unfold largestBitset at *
  dsimp only at hnb
  split_ifs at hnb
  · omega
  · omega

/-- The filter that a builder of `nb` bytes leaves. -/
def frozen (nb : Int) (h : 32 ≤ nb ∧ nb % 32 = 0 ∧ nb ≤ largestBitset) (hashes : List UInt64) : Sbbf where
  sbbfBlocks := (nb / blockBytes).toNat
  sbbfData := (runBuilder ⟨(nb / blockBytes).toNat, List.replicate (nb / 8).toNat 0⟩ hashes).builderData
  positive := by
    unfold blockBytes
    omega
  size := by
    rw [runBuilder_length, List.length_replicate]
    unfold blockBytes
    omega
  bounded := by
    unfold largestBitset at *
    unfold blockBytes
    omega

def buildSbbfChecked (bytes : Int) (hashes : List UInt64) : Except String Sbbf :=
  match h : normalisedBitsetSize bytes with
  | .error e => .error e
  | .ok nb => .ok (frozen nb (normalisedBitsetSize_ok h) hashes)

/-! ## The wire form -/

/-- The bytes of a word, the low one first. -/
def wordBytes (w : UInt64) : List UInt8 := (List.range 8).map fun lane => (w >>> UInt64.ofNat (lane * 8)).toUInt8

def copyBitset (bitsetWords : List UInt64) : List UInt8 := bitsetWords.flatMap wordBytes

/-- The Thrift values that occur in headers; `other` stands for the rest. -/
inductive Value where
  | i32 (v : Int32)
  | struct (fields : List (Int16 × Value))
  | other

inductive BloomFilterAlgorithm where
  | algBlock
  deriving DecidableEq, Repr

inductive BloomFilterHash where
  | hashXxh64
  deriving DecidableEq, Repr

inductive BloomFilterCompression where
  | compUncompressed
  deriving DecidableEq, Repr

structure BloomFilterHeader where
  bfhNumBytes : Int32
  bfhAlgorithm : BloomFilterAlgorithm
  bfhHash : BloomFilterHash
  bfhCompression : BloomFilterCompression
  deriving DecidableEq, Repr

/-- The first variant of a union, without fields. -/
def unionVariant1 : Value := .struct [(1, .struct [])]

def bloomFilterHeaderToThrift (hdr : BloomFilterHeader) : Value :=
  .struct [(1, .i32 hdr.bfhNumBytes), (2, unionVariant1), (3, unionVariant1), (4, unionVariant1)]

def findField {α : Type} (fields : List (Int16 × Value)) (probe : Int16 × Value → Option α) : Option α :=
  (fields.filterMap probe).head?

def probeNumBytes : Int16 × Value → Option Int32
  | (1, .i32 v) => some v
  | _ => none

def probeUnion (id : Int16) : Int16 × Value → Option (List (Int16 × Value))
  | (fid, .struct fs) => if fid = id then some fs else none
  | _ => none

def requireUnionVariant1 {α : Type} (fm : List (Int16 × Value)) (missingLabel : String) (id : Int16) (variant : α)
    (unionName : String) : Except String α :=
  match findField fm (probeUnion id) with
  | some [(1, _)] => .ok variant
  | some _ => .error ("Parquet.BloomFilter: unsupported " ++ unionName ++ " union variant")
  | none => .error ("Parquet.BloomFilter: missing " ++ missingLabel)

def thriftToBloomFilterHeader : Value → Except String BloomFilterHeader
  | .struct fm => do
    let nb ← match findField fm probeNumBytes with
      | some v => .ok v
      | none => .error "Parquet.BloomFilter: missing numBytes"
    let alg ← requireUnionVariant1 fm "algorithm" 2 .algBlock "BloomFilterAlgorithm"
    let hsh ← requireUnionVariant1 fm "hash" 3 .hashXxh64 "BloomFilterHash"
    let cmp ← requireUnionVariant1 fm "compression" 4 .compUncompressed "BloomFilterCompression"
    .ok ⟨nb, alg, hsh, cmp⟩
  | _ => .error "Parquet.BloomFilter: expected struct for BloomFilterHeader"

def headerOf (sbbf : Sbbf) : BloomFilterHeader := ⟨Int32.ofNat (sbbfBytes sbbf), .algBlock, .hashXxh64, .compUncompressed⟩

section

variable (encodeCompact : Value → List UInt8) (decodeCompactFrom : List UInt8 → Nat → Except String (Value × Nat))

def encodeBloomFilter (sbbf : Sbbf) : List UInt8 :=
  encodeCompact (bloomFilterHeaderToThrift (headerOf sbbf)) ++ copyBitset sbbf.sbbfData

def splitHeader (bs : List UInt8) : Except String (BloomFilterHeader × List UInt8) := do
  let (value, headerEnd) ← decodeCompactFrom bs 0
  let header ← thriftToBloomFilterHeader value
  .ok (header, bs.drop headerEnd)

def decodeBloomFilter (bs : List UInt8) : Except String (BloomFilterHeader × Sbbf) := do
  let (hdr, rest) ← splitHeader decodeCompactFrom bs
  let nb := hdr.bfhNumBytes.toInt
  if nb < blockBytes ∨ nb % blockBytes ≠ 0 then
    .error "Parquet.BloomFilter: bitset size must be a positive multiple of 32 bytes"
  else if rest.length < nb then
    .error ("Parquet.BloomFilter: bitset truncated (need " ++ toString nb ++ " bytes, have " ++
      toString rest.length ++ ")")
  else
    let sbbf ← newSbbfBytesChecked nb (parseBitset (rest.take nb.toNat))
    .ok (hdr, sbbf)

end

/-! ## Words and bytes -/

theorem wordBytes_eq (w : UInt64) : wordBytes w = leBytes 8 w.toNat := by
  have hbyte : ∀ k < 8, (w >>> UInt64.ofNat (k * 8)).toUInt8 = UInt8.ofNat (w.toNat / 256 ^ k) := by
    intro k hk
    apply UInt8.toNat_inj.1
    have hshift : (UInt64.ofNat (k * 8)).toNat % 64 = k * 8 := by
      rw [UInt64.toNat_ofNat']
      omega
    rw [UInt64.toNat_toUInt8, UInt64.toNat_shiftRight, hshift, Nat.shiftRight_eq_div_pow, UInt8.toNat_ofNat',
      Nat.mul_comm k 8, pow_mul]
    rfl
  have hdiv : ∀ n j : Nat, n / 256 ^ j / 256 = n / 256 ^ (j + 1) := fun n j => by
    rw [Nat.div_div_eq_div_mul, pow_succ]
  have hrange : List.range 8 = [0, 1, 2, 3, 4, 5, 6, 7] := by decide
  have h0 := hbyte 0 (by decide)
  rw [pow_zero, Nat.div_one] at h0
  rw [wordBytes, hrange]
  simp only [List.map_cons, List.map_nil, h0, hbyte 1 (by decide), hbyte 2 (by decide), hbyte 3 (by decide),
    hbyte 4 (by decide), hbyte 5 (by decide), hbyte 6 (by decide), hbyte 7 (by decide)]
  have h1 : w.toNat / 256 = w.toNat / 256 ^ 1 := by rw [pow_one]
  simp only [leBytes, h1, hdiv]

@[simp] theorem length_wordBytes (w : UInt64) : (wordBytes w).length = 8 := by simp [wordBytes]

theorem length_copyBitset (ws : List UInt64) : (copyBitset ws).length = 8 * ws.length := by
  rw [copyBitset, List.length_flatMap]
  simp [Nat.mul_comm]

/-- A byte above a value that ends below it. -/
theorem or_byte {acc : UInt64} {n : Nat} (hacc : acc.toNat < 256 ^ n) (hn : n < 8) (b : UInt8) :
    (acc ||| b.toUInt64 <<< UInt64.ofNat (8 * n)).toNat = acc.toNat + 256 ^ n * b.toNat := by
  have hpow : 2 ^ (8 * n) = 256 ^ n := by rw [pow_mul]; rfl
  have hb : b.toUInt64.toNat < 2 ^ 8 := by simpa using b.toNat_lt
  rw [toNat_or_shift (by omega) (by rw [hpow]; exact hacc) ?_, hpow, UInt8.toNat_toUInt64, Nat.mul_comm]
  calc b.toUInt64.toNat * 2 ^ (8 * n) < 2 ^ 8 * 2 ^ (8 * n) := Nat.mul_lt_mul_of_pos_right hb (Nat.two_pow_pos _)
    _ = 2 ^ (8 + 8 * n) := (pow_add 2 8 (8 * n)).symm
    _ ≤ 2 ^ 64 := Nat.pow_le_pow_right (by decide) (by omega)

/-- One more byte above those read so far. -/
theorem or_next {acc : UInt64} {bs : List UInt8} (h : acc.toNat = leValue bs) (hlen : bs.length < 8) (b : UInt8) :
    (acc ||| b.toUInt64 <<< UInt64.ofNat (8 * bs.length)).toNat = leValue (bs ++ [b]) := by
  rw [or_byte (h ▸ leValue_lt bs) hlen b, h, leValue_append]
  simp

theorem readLE64_eq {bs : List UInt8} (h : bs.length = 8) : (readLE64 bs 0).toNat = leValue bs := by
  match bs, h with
  | [b0, b1, b2, b3, b4, b5, b6, b7], _ =>
    have h0 : b0.toUInt64.toNat = leValue [b0] := by simp
    have h1 := or_next h0 (by simp) b1
    have h2 := or_next h1 (by simp) b2
    have h3 := or_next h2 (by simp) b3
    have h4 := or_next h3 (by simp) b4
    have h5 := or_next h4 (by simp) b5
    have h6 := or_next h5 (by simp) b6
    exact or_next h6 (by simp) b7

theorem readLE64_wordBytes (w : UInt64) : readLE64 (wordBytes w) 0 = w := by
  apply UInt64.toNat_inj.1
  rw [readLE64_eq (length_wordBytes w), wordBytes_eq, leValue_leBytes]
  exact Nat.mod_eq_of_lt w.toNat_lt

theorem readLE64_append {as : List UInt8} (h : as.length = 8) (bs : List UInt8) : readLE64 (as ++ bs) 0 = readLE64 as 0 := by
  match as, h with
  | [b0, b1, b2, b3, b4, b5, b6, b7], _ => rfl

theorem readLE64_later {as : List UInt8} (h : as.length = 8) (bs : List UInt8) (i : Nat) :
    readLE64 (as ++ bs) ((i + 1) * 8) = readLE64 bs (i * 8) := by
  have hget : ∀ j, (as ++ bs).getD ((i + 1) * 8 + j) 0 = bs.getD (i * 8 + j) 0 := by
    intro j
    rw [List.getD_eq_getElem?_getD, List.getElem?_append_right (by omega), ← List.getD_eq_getElem?_getD]
    congr 1
    omega
  simp only [readLE64, hget]

theorem parseBitset_append {as : List UInt8} (h : as.length = 8) (bs : List UInt8) :
    parseBitset (as ++ bs) = readLE64 as 0 :: parseBitset bs := by
  have hlen : (as ++ bs).length / 8 = bs.length / 8 + 1 := by
    rw [List.length_append]
    omega
  rw [parseBitset, hlen, List.range_succ_eq_map, List.map_cons, List.map_map, Nat.zero_mul, readLE64_append h]
  congr 1
  exact List.map_congr_left fun i _ => readLE64_later h bs i

/-- The words come back from their bytes. -/
theorem parseBitset_copyBitset (ws : List UInt64) : parseBitset (copyBitset ws) = ws := by
  induction ws with
  | nil => rfl
  | cons w ws ih =>
    rw [copyBitset, List.flatMap_cons, parseBitset_append (length_wordBytes w), readLE64_wordBytes]
    exact congrArg (w :: ·) ih

/-! ## What was made comes back -/

theorem sbbf_eq {f g : Sbbf} (hb : f.sbbfBlocks = g.sbbfBlocks) (hd : f.sbbfData = g.sbbfData) : f = g := by
  cases f
  cases g
  simp only at hb hd
  subst hb hd
  rfl

theorem newSbbfBytesChecked_data (f : Sbbf) : newSbbfBytesChecked (sbbfBytes f) f.sbbfData = .ok f := by
  have hpos := f.positive
  have hsize := f.size
  have hmax := f.bounded
  have hne : f.sbbfData ≠ [] := by
    intro h
    rw [h] at hsize
    simp only [List.length_nil] at hsize
    omega
  have hb : ¬((sbbfBytes f : Int) < blockBytes ∨ (sbbfBytes f : Int) % blockBytes ≠ 0 ∨ (sbbfBytes f : Int) > largestBitset) := by
    unfold sbbfBytes blockBytes
    omega
  have hw : ¬(f.sbbfData ≠ [] ∧ f.sbbfData.length ≠ ((sbbfBytes f : Int) / 8).toNat) := by
    rw [not_and, not_not]
    intro _
    unfold sbbfBytes
    omega
  rw [newSbbfBytesChecked, dif_neg hb, dif_neg hw]
  refine congrArg Except.ok (sbbf_eq ?_ (if_neg hne))
  show ((sbbfBytes f : Int) / blockBytes).toNat = f.sbbfBlocks
  unfold sbbfBytes blockBytes
  omega

theorem length_bitset (f : Sbbf) : (copyBitset f.sbbfData).length = sbbfBytes f := by
  rw [length_copyBitset, f.size, sbbfBytes]
  omega

theorem newSbbfFromBytesChecked_data (f : Sbbf) : newSbbfFromBytesChecked (copyBitset f.sbbfData) = .ok f := by
  have hpos := f.positive
  have hmax := f.bounded
  have hb : ¬((sbbfBytes f : Int) < blockBytes ∨ (sbbfBytes f : Int) % blockBytes ≠ 0 ∨ (sbbfBytes f : Int) > largestBitset) := by
    unfold sbbfBytes blockBytes
    omega
  rw [newSbbfFromBytesChecked, length_bitset, parseBitset_copyBitset]
  exact (if_neg hb).trans (newSbbfBytesChecked_data f)

theorem thriftToBloomFilterHeader_of (hdr : BloomFilterHeader) :
    thriftToBloomFilterHeader (bloomFilterHeaderToThrift hdr) = .ok hdr := by
  obtain ⟨nb, alg, hsh, cmp⟩ := hdr
  cases alg
  cases hsh
  cases cmp
  rfl

section

variable {encodeCompact : Value → List UInt8} {decodeCompactFrom : List UInt8 → Nat → Except String (Value × Nat)}

theorem decode_encodeBloomFilter (f : Sbbf)
    (hcodec : decodeCompactFrom (encodeBloomFilter encodeCompact f) 0 =
      .ok (bloomFilterHeaderToThrift (headerOf f), (encodeCompact (bloomFilterHeaderToThrift (headerOf f))).length)) :
    decodeBloomFilter decodeCompactFrom (encodeBloomFilter encodeCompact f) = .ok (headerOf f, f) := by
  have hpos := f.positive
  have hmax := f.bounded
  have hsplit : splitHeader decodeCompactFrom (encodeBloomFilter encodeCompact f) =
      .ok (headerOf f, copyBitset f.sbbfData) := by
    simp only [splitHeader, hcodec, bind, Except.bind, thriftToBloomFilterHeader_of]
    rw [encodeBloomFilter, List.drop_left]
  have hnb : (headerOf f).bfhNumBytes.toInt = sbbfBytes f := by
    unfold largestBitset at hmax
    refine Int32.toInt_ofNat_of_lt ?_
    unfold sbbfBytes
    omega
  have hb : ¬((sbbfBytes f : Int) < blockBytes ∨ (sbbfBytes f : Int) % blockBytes ≠ 0) := by
    unfold sbbfBytes blockBytes
    omega
  have hlen : ¬((copyBitset f.sbbfData).length : Int) < sbbfBytes f := by
    rw [length_bitset]
    omega
  have htake : (copyBitset f.sbbfData).take (sbbfBytes f : Int).toNat = copyBitset f.sbbfData := by
    refine List.take_of_length_le ?_
    rw [length_bitset]
    omega
  rw [decodeBloomFilter, hsplit]
  show (if _ then _ else _) = _
  rw [hnb, if_neg hb, if_neg hlen, htake, parseBitset_copyBitset, newSbbfBytesChecked_data]
  rfl

end

/-! ## Insertions in any order -/

theorem getD_applyLanePair {ws : List UInt64} {i : Nat} (hi : i < ws.length) (x : UInt32) (j lo hi' : Nat) :
    (applyLanePair ws x j lo hi').getD i 0 = if i = j then ws.getD i 0 ||| lanePair x lo hi' else ws.getD i 0 := by
  rw [applyLanePair, List.getD_eq_getElem?_getD, List.getElem?_set]
  by_cases h : j = i
  · subst h
    rw [if_pos rfl, if_pos hi, if_pos rfl]
    rfl
  · rw [if_neg h, if_neg (Ne.symm h), List.getD_eq_getElem?_getD]

/-- The bits that a value adds to a word. -/
def wordMask (block : Nat) (x : UInt32) (i : Nat) : UInt64 :=
  if i / 4 = block then lanePair x (2 * (i % 4)) (2 * (i % 4) + 1) else 0

theorem getD_updateBlock {ws : List UInt64} {i : Nat} (hi : i < ws.length) (block : Nat) (x : UInt32) :
    (updateBlock ws block x).getD i 0 = ws.getD i 0 ||| wordMask block x i := by
  simp only [updateBlock]
  rw [getD_applyLanePair (by simpa using hi), getD_applyLanePair (by simpa using hi),
    getD_applyLanePair (by simpa using hi), getD_applyLanePair hi, wordMask]
  by_cases hblock : i / 4 = block
  · rw [if_pos hblock]
    have hcases : i % 4 = 0 ∨ i % 4 = 1 ∨ i % 4 = 2 ∨ i % 4 = 3 := by omega
    rcases hcases with h | h | h | h
    · rw [if_neg (by omega), if_neg (by omega), if_neg (by omega), if_pos (by omega), h]
    · rw [if_neg (by omega), if_neg (by omega), if_pos (by omega), if_neg (by omega), h]
    · rw [if_neg (by omega), if_pos (by omega), if_neg (by omega), if_neg (by omega), h]
    · rw [if_pos (by omega), if_neg (by omega), if_neg (by omega), if_neg (by omega), h]
  · rw [if_neg hblock, if_neg (by omega), if_neg (by omega), if_neg (by omega), if_neg (by omega), UInt64.or_zero]

theorem updateBlock_comm (ws : List UInt64) (block block' : Nat) (x x' : UInt32) :
    updateBlock (updateBlock ws block x) block' x' = updateBlock (updateBlock ws block' x') block x := by
  refine List.ext_getElem (by simp) fun i h h' => ?_
  have hi : i < ws.length := by simpa using h
  have hleft : ∀ (us : List UInt64) (hu : i < us.length), us[i] = us.getD i 0 := by
    intro us hu
    rw [List.getD_eq_getElem?_getD, List.getElem?_eq_getElem hu]
    rfl
  rw [hleft, hleft, getD_updateBlock (by simpa using hi), getD_updateBlock hi, getD_updateBlock (by simpa using hi),
    getD_updateBlock hi, UInt64.or_assoc, UInt64.or_assoc, UInt64.or_comm (wordMask block x i)]

theorem sbbfInsertHash_blocks (h : UInt64) (f : Sbbf) : (sbbfInsertHash h f).sbbfBlocks = f.sbbfBlocks := rfl

theorem sbbfInsertHash_data (h : UInt64) (f : Sbbf) :
    (sbbfInsertHash h f).sbbfData = updateBlock f.sbbfData (blockIndex h f.sbbfBlocks) h.toUInt32 := rfl

theorem sbbfInsertHash_comm (f : Sbbf) (h h' : UInt64) :
    sbbfInsertHash h' (sbbfInsertHash h f) = sbbfInsertHash h (sbbfInsertHash h' f) := by
  refine sbbf_eq ?_ ?_
  · simp only [sbbfInsertHash_blocks]
  · simp only [sbbfInsertHash_data, sbbfInsertHash_blocks]
    exact updateBlock_comm _ _ _ _ _

/-- A list of hashes, one after the other. -/
def insertHashes (f : Sbbf) (hashes : List UInt64) : Sbbf := hashes.foldl (fun f h => sbbfInsertHash h f) f

theorem insertHashes_perm {hashes hashes' : List UInt64} (p : hashes.Perm hashes') (f : Sbbf) :
    insertHashes f hashes = insertHashes f hashes' :=
  p.foldl_eq' (fun h _ h' _ f => sbbfInsertHash_comm f h h') f

theorem runBuilder_insertHashes (f : Sbbf) (hashes : List UInt64) :
    (runBuilder ⟨f.sbbfBlocks, f.sbbfData⟩ hashes).builderData = (insertHashes f hashes).sbbfData ∧
    (insertHashes f hashes).sbbfBlocks = f.sbbfBlocks := by
  induction hashes generalizing f with
  | nil => exact ⟨rfl, rfl⟩
  | cons h hs ih => exact ih (sbbfInsertHash h f)

theorem newSbbfBytesChecked_frozen {nb : Int} (h : 32 ≤ nb ∧ nb % 32 = 0 ∧ nb ≤ largestBitset) :
    newSbbfBytesChecked nb [] = .ok (frozen nb h []) := by
  have hb : ¬(nb < blockBytes ∨ nb % blockBytes ≠ 0 ∨ nb > largestBitset) := by
    unfold blockBytes
    omega
  rw [newSbbfBytesChecked, dif_neg hb, dif_neg (by simp)]
  rfl

theorem frozen_eq {nb : Int} (h : 32 ≤ nb ∧ nb % 32 = 0 ∧ nb ≤ largestBitset) (hashes : List UInt64) :
    frozen nb h hashes = insertHashes (frozen nb h []) hashes := by
  obtain ⟨hdata, hblocks⟩ := runBuilder_insertHashes (frozen nb h []) hashes
  exact sbbf_eq hblocks.symm hdata

/-- The builder leaves what the insertions leave, in whatever order. -/
theorem buildSbbfChecked_eq (bytes : Int) {hashes hashes' : List UInt64} (p : hashes.Perm hashes') :
    buildSbbfChecked bytes hashes = (newSbbfChecked bytes).map fun f => insertHashes f hashes' := by
  have hnew : ∀ r, normalisedBitsetSize bytes = r → newSbbfChecked bytes = r >>= fun nb => newSbbfBytesChecked nb [] :=
    fun r hr => congrArg (· >>= fun nb => newSbbfBytesChecked nb []) hr
  unfold buildSbbfChecked
  split
  · rename_i e he
    rw [hnew _ he]
    rfl
  · rename_i nb hnb
    rw [hnew _ hnb]
    show _ = Except.map _ (newSbbfBytesChecked nb [])
    rw [newSbbfBytesChecked_frozen (normalisedBitsetSize_ok hnb), frozen_eq, insertHashes_perm p]
    rfl

/-! ## No filter forgets -/

section

variable (encodeCompact : Value → List UInt8) (decodeCompactFrom : List UInt8 → Nat → Except String (Value × Nat))

/-- A filter that was made, and the hashes inserted on the way. -/
inductive Made : Sbbf → List UInt64 → Prop where
  | fresh {bytes : Int} {f : Sbbf} (h : newSbbfChecked bytes = .ok f) : Made f []
  | words {nb : Int} {ws : List UInt64} {f : Sbbf} (h : newSbbfBytesChecked nb ws = .ok f) : Made f []
  | raw {bytes : List UInt8} {f : Sbbf} (h : newSbbfFromBytesChecked bytes = .ok f) : Made f []
  | built {bytes : Int} {hashes : List UInt64} {f : Sbbf} (h : buildSbbfChecked bytes hashes = .ok f) : Made f hashes
  | inserted {f : Sbbf} {hashes : List UInt64} (h : UInt64) (m : Made f hashes) : Made (sbbfInsertHash h f) (h :: hashes)
  | reloaded {f f' : Sbbf} {hashes : List UInt64} (m : Made f hashes)
      (h : newSbbfFromBytesChecked (copyBitset f.sbbfData) = .ok f') : Made f' hashes
  | decoded {f f' : Sbbf} {hdr : BloomFilterHeader} {hashes : List UInt64} (m : Made f hashes)
      (h : decodeBloomFilter decodeCompactFrom (encodeBloomFilter encodeCompact f) = .ok (hdr, f')) : Made f' hashes

variable {encodeCompact decodeCompactFrom}

theorem check_insertHashes {h : UInt64} {f : Sbbf} (hashes : List UInt64) (hc : sbbfCheckHash h f = true) :
    sbbfCheckHash h (insertHashes f hashes) = true := by
  induction hashes generalizing f with
  | nil => exact hc
  | cons h' hs ih => exact ih (sbbfCheckHash_mono h' hc)

theorem check_of_mem {h : UInt64} {hashes : List UInt64} (hmem : h ∈ hashes) (f : Sbbf) :
    sbbfCheckHash h (insertHashes f hashes) = true := by
  induction hashes generalizing f with
  | nil => cases hmem
  | cons h' hs ih =>
    rcases List.mem_cons.1 hmem with rfl | hmem
    · exact check_insertHashes hs (sbbfCheckHash_insert _ f)
    · exact ih hmem _

/-- The codec gives the header of a filter back, and where it ends. -/
def ReadsHeader (encodeCompact : Value → List UInt8) (decodeCompactFrom : List UInt8 → Nat → Except String (Value × Nat))
    (f : Sbbf) : Prop :=
  ∀ rest, decodeCompactFrom (encodeCompact (bloomFilterHeaderToThrift (headerOf f)) ++ rest) 0 =
    .ok (bloomFilterHeaderToThrift (headerOf f), (encodeCompact (bloomFilterHeaderToThrift (headerOf f))).length)

theorem Made.check (hcodec : ∀ f, ReadsHeader encodeCompact decodeCompactFrom f) {f : Sbbf} {hashes : List UInt64}
    (m : Made encodeCompact decodeCompactFrom f hashes) : ∀ h ∈ hashes, sbbfCheckHash h f = true := by
  induction m with
  | fresh _ => exact fun h hmem => absurd hmem (List.not_mem_nil)
  | words _ => exact fun h hmem => absurd hmem (List.not_mem_nil)
  | raw _ => exact fun h hmem => absurd hmem (List.not_mem_nil)
  | @built bytes hashes f hf =>
    intro h hmem
    rw [buildSbbfChecked_eq bytes (List.Perm.refl hashes)] at hf
    cases hnew : newSbbfChecked bytes with
    | error e =>
      rw [hnew] at hf
      cases hf
    | ok start =>
      rw [hnew] at hf
      cases hf
      exact check_of_mem hmem start
  | inserted h' _ ih =>
    intro h hmem
    rcases List.mem_cons.1 hmem with rfl | hmem
    · exact sbbfCheckHash_insert _ _
    · exact sbbfCheckHash_mono h' (ih h hmem)
  | reloaded _ hf ih =>
    rw [newSbbfFromBytesChecked_data] at hf
    cases hf
    exact ih
  | decoded _ hf ih =>
    rw [decode_encodeBloomFilter _ (hcodec _ _)] at hf
    cases hf
    exact ih

/-- **No filter forgets.** A filter finds the hashes that were inserted, however it was
    made, and goes on finding what it finds; the builder is the insertions in any order; a
    filter comes back from its bytes and from the wire; and all words touched are there. -/
theorem sbbf_faithful (hcodec : ∀ f, ReadsHeader encodeCompact decodeCompactFrom f) :
    (∀ f hashes, Made encodeCompact decodeCompactFrom f hashes → ∀ h ∈ hashes, sbbfCheckHash h f = true) ∧
    (∀ f h hashes, sbbfCheckHash h f = true → sbbfCheckHash h (insertHashes f hashes) = true) ∧
    (∀ bytes (hashes hashes' : List UInt64), hashes.Perm hashes' →
      buildSbbfChecked bytes hashes = (newSbbfChecked bytes).map fun f => insertHashes f hashes') ∧
    (∀ f, decodeBloomFilter decodeCompactFrom (encodeBloomFilter encodeCompact f) = .ok (headerOf f, f) ∧
      newSbbfFromBytesChecked (copyBitset f.sbbfData) = .ok f) ∧
    (∀ (f : Sbbf) h, blockIndex h f.sbbfBlocks < f.sbbfBlocks ∧
      blockIndex h f.sbbfBlocks * 4 + 3 < f.sbbfData.length) := by
  refine ⟨fun f hashes m => m.check hcodec, fun f h hashes hc => check_insertHashes hashes hc,
    fun bytes hashes hashes' p => buildSbbfChecked_eq bytes p,
    fun f => ⟨decode_encodeBloomFilter f (hcodec f _), newSbbfFromBytesChecked_data f⟩, fun f h => ?_⟩
  have hlt := blockIndex_lt h f
  exact ⟨hlt, by rw [f.size]; omega⟩

end

/-! ## The compact form of a header -/

/-- Three unions with an empty struct for their first variant, and the end of the header. -/
def unionBytes : List UInt8 := [0x1C, 0x1C, 0, 0, 0x1C, 0x1C, 0, 0, 0x1C, 0x1C, 0, 0, 0]

def headerBytes : Value → List UInt8
  | .struct ((1, .i32 n) :: _) => 0x15 :: (leb128 (zigZag32 n).toUInt64.toNat ++ unionBytes)
  | _ => []

def readHeaderBytes (bs : List UInt8) (off : Nat) : Except String (Value × Nat) :=
  match bs.drop off with
  | 0x15 :: rest =>
    match getVarintLazy rest with
    | .ok (w, rest') =>
      if unionBytes <+: rest' then
        let n := unZigZag32 w.toUInt32
        .ok (bloomFilterHeaderToThrift ⟨n, .algBlock, .hashXxh64, .compUncompressed⟩,
          bs.length - rest'.length + unionBytes.length)
      else .error "decodeCompactFrom: failed to decode struct"
    | .error _ => .error "decodeCompactFrom: failed to decode struct"
  | _ => .error "decodeCompactFrom: failed to decode struct"

theorem readsHeader_headerBytes (f : Sbbf) : ReadsHeader headerBytes readHeaderBytes f := by
  intro rest
  generalize hn : (headerOf f).bfhNumBytes = n
  have hheader : headerOf f = ⟨n, .algBlock, .hashXxh64, .compUncompressed⟩ := by rw [← hn]
  rw [hheader]
  have hbytes : headerBytes (bloomFilterHeaderToThrift ⟨n, .algBlock, .hashXxh64, .compUncompressed⟩) =
    0x15 :: (leb128 (zigZag32 n).toUInt64.toNat ++ unionBytes) := rfl
  have hread := getVarintLazy_leb128 (zigZag32 n).toUInt64 (unionBytes ++ rest)
  rw [hbytes, readHeaderBytes, List.drop_zero]
  simp only [List.cons_append, List.append_assoc, hread]
  rw [if_pos (List.prefix_append _ _), UInt32.toUInt32_toUInt64, unZigZag32_zigZag32]
  simp only [List.length_cons, List.length_append]
  congr 2
  omega

/-- The theorem, for a filter of one block with one hash. -/
theorem sbbf_faithful_compact :
    sbbfCheckHash 7 (sbbfInsertHash 7 (frozen 32 (by decide) [])) = true ∧
    decodeBloomFilter readHeaderBytes (encodeBloomFilter headerBytes (frozen 32 (by decide) [7])) =
      .ok (headerOf (frozen 32 (by decide) [7]), frozen 32 (by decide) [7]) := by
  obtain ⟨hmade, -, -, hwire, -⟩ := @sbbf_faithful headerBytes readHeaderBytes readsHeader_headerBytes
  have hsize : normalisedBitsetSize 32 = .ok 32 := rfl
  have hfresh : newSbbfChecked 32 = .ok (frozen 32 (by decide) []) := by
    rw [newSbbfChecked, hsize]
    exact newSbbfBytesChecked_frozen ⟨le_refl 32, rfl, by decide⟩
  exact ⟨hmade _ _ (.inserted 7 (.fresh hfresh)) 7 (List.mem_singleton.2 rfl), (hwire _).1⟩

end Wireform.Parquet.BloomFilter

/-
  Deletion vectors (`Iceberg.DeletionVector`).

  * `DeletionVector`: the deleted rows of a file, by the high and the low 32 bits;
  * `encodeDV`, `decodeDV`: the portable Roaring bitmap of them;
  * `toPuffinBlob`, `fromPuffinBlob`: the bitmap with its length and its checksum;
  * `containsPosition_addPositions`, `mem_deletedPositions`, `deletedPositions_ascends`: the positions of a vector
    are the ones that were added.
-/
import Wireform.AssocMap
import Wireform.OrderedSet
import Wireform.Numerals
import Wireform.MachineInt
import Wireform.Fallible
import Wireform.Iceberg.Types
import Mathlib.Data.Int.Bitwise

namespace Wireform.Iceberg

abbrev IntSet := OrderedSet Nat

/-- For each high key its set of low positions. -/
structure DeletionVector where
  dvBuckets : AssocMap Int IntSet

def emptyDV : DeletionVector := ⟨[]⟩

/-- `pos shiftR 32`. -/
def highKey (pos : Int) : Int := pos / 2 ^ 32

/-- `pos .&. 0xFFFFFFFF`. -/
def lowBits (pos : Int) : Nat := (pos % 2 ^ 32).toNat

def addPosition (pos : Int) (dv : DeletionVector) : DeletionVector :=
  ⟨AssocMap.insertWith OrderedSet.union (highKey pos) [lowBits pos] dv.dvBuckets⟩

def addPositions (xs : List Int) (dv : DeletionVector) : DeletionVector := xs.foldr addPosition dv

def deletedPositions (dv : DeletionVector) : List Int :=
  dv.dvBuckets.flatMap fun (hi, set) => set.map fun lo : Nat => Int.lor (wrap (hi * 2 ^ 32)) (lo : Int)

def containsPosition (pos : Int) (dv : DeletionVector) : Bool :=
  match AssocMap.lookup (highKey pos) dv.dvBuckets with
  | some set => decide (lowBits pos ∈ set)
  | none => false

/-! ## Bytes of a vector -/

def groupByHighGo : List (Nat × Nat) → List (Nat × List Nat)
  | [] => []
  | (h, l) :: rest =>
    (h, l :: (rest.takeWhile fun x => x.1 = h).map Prod.snd) :: groupByHighGo (rest.dropWhile fun x => x.1 = h)
termination_by xs => xs.length
decreasing_by exact Nat.lt_succ_of_le (List.dropWhile_suffix _).length_le

def groupByHigh (xs : List Nat) : List (Nat × List Nat) := groupByHighGo (xs.map fun x => (x / 2 ^ 16, x % 2 ^ 16))

def computeOffsetsGo : Nat → List (Nat × List Nat) → List Nat
  | _, [] => []
  | o, (_, lows) :: rest => o :: computeOffsetsGo (o + 2 * lows.length) rest

def computeOffsets (n : Nat) (grouped : List (Nat × List Nat)) : List Nat :=
  computeOffsetsGo (4 + 4 + 4 * n + 4 * n) grouped

/-- One array container for each 16-bit key. -/
def encodeRoaring32 (set : IntSet) : ByteString :=
  let grouped := groupByHigh set
  let header := leBytes 4 0x3B30 ++ leBytes 4 grouped.length
  let keys := grouped.flatMap fun (key, lows) => leBytes 2 key ++ leBytes 2 (lows.length - 1)
  let offs := (computeOffsets grouped.length grouped).flatMap (leBytes 4)
  let payload := grouped.flatMap fun (_, lows) => lows.flatMap (leBytes 2)
  header ++ keys ++ offs ++ payload

def encodeDV (dv : DeletionVector) : ByteString :=
  leBytes 8 dv.dvBuckets.length ++ dv.dvBuckets.flatMap fun (hi, set) =>
    leBytes 4 (hi % 2 ^ 32).toNat ++ encodeRoaring32 set

def takeWord32LE (bs : ByteString) : Except String (Nat × ByteString) :=
  if bs.length < 4 then .error "expected 4 bytes" else .ok (leValue (bs.take 4), bs.drop 4)

def takeWord64LE (bs : ByteString) : Except String (Nat × ByteString) :=
  if bs.length < 8 then .error "expected 8 bytes" else .ok (leValue (bs.take 8), bs.drop 8)

/-- The keys and cardinalities of the containers. -/
def unflatten4 : ByteString → List (Nat × Nat)
  | b₀ :: b₁ :: b₂ :: b₃ :: bs => (leValue [b₀, b₁], leValue [b₂, b₃] + 1) :: unflatten4 bs
  | _ => []

/-- The kernel for an array container: 16-bit values, the low byte first. -/
def roaringDecodeArray : ByteString → Nat → List Nat
  | _, 0 => []
  | bs, card + 1 => leValue (bs.take 2) :: roaringDecodeArray (bs.drop 2) card

section
variable (fromAscList : List Nat → IntSet)

/-- What `IntSet.fromAscList` is documented to do: its input must ascend, which it does not check. -/
def BuildsAscending : Prop := ∀ xs : List Nat, xs.Pairwise (· ≤ ·) → fromAscList xs = OrderedSet.fromList xs

def goContainers : List (Nat × Nat) → ByteString → IntSet → Except String (IntSet × ByteString)
  | [], tail, acc => .ok (acc, tail)
  | (key, card) :: rest, tail, acc =>
    if tail.length < 2 * card then .error "Roaring32: truncated container payload"
    else
      let ascList := (roaringDecodeArray (tail.take (2 * card)) card).map fun low => key * 0x10000 + low
      goContainers rest (tail.drop (2 * card)) (OrderedSet.union acc (fromAscList ascList))

def decodeRoaring32C (bs : ByteString) : Except String (IntSet × ByteString) := do
  let (cookie, r1) ← takeWord32LE bs
  if cookie &&& 0xFFFF ≠ 0x3B30 then throw "Roaring32: bad cookie"
  else
    let (n, r2) ← takeWord32LE r1
    if r2.length < 8 * n then throw "Roaring32: truncated container table"
    else goContainers fromAscList (unflatten4 (r2.take (4 * n))) ((r2.drop (4 * n)).drop (4 * n)) []

theorem takeWord32LE_shorter {bs r : ByteString} {n : Nat} (h : takeWord32LE bs = .ok (n, r)) :
    r.length + 4 = bs.length := by
  unfold takeWord32LE at h
  split_ifs at h with hlen
  injection h with h
  injection h with _ h
  rw [← h, List.length_drop]
  omega

theorem goContainers_shorter {kcs : List (Nat × Nat)} {tail rest : ByteString} {acc set : IntSet}
    (h : goContainers fromAscList kcs tail acc = .ok (set, rest)) : rest.length ≤ tail.length := by
  induction kcs generalizing tail acc with
  | nil =>
    cases h
    exact le_refl _
  | cons kc kcs ih =>
    obtain ⟨key, card⟩ := kc
    rw [goContainers] at h
    split_ifs at h
    exact (ih h).trans (by rw [List.length_drop]; omega)

theorem decodeRoaring32C_shorter {bs rest : ByteString} {set : IntSet}
    (h : decodeRoaring32C fromAscList bs = .ok (set, rest)) : rest.length ≤ bs.length := by
  obtain ⟨⟨cookie, r1⟩, h1, h⟩ := bind_ok.1 h
  dsimp only at h
  split_ifs at h
  obtain ⟨⟨n, r2⟩, h2, h⟩ := bind_ok.1 h
  dsimp only at h
  split_ifs at h
  have := takeWord32LE_shorter h1
  have := takeWord32LE_shorter h2
  have := goContainers_shorter fromAscList h
  simp only [List.length_drop] at this
  omega

/-- The entries of a bitmap.  `n - 1` wraps around, so also a count that is negative as an `Int` runs down to zero;
    but every entry takes bytes. -/
def decodeDVGo (n : Int) (bs : ByteString) (acc : AssocMap Int IntSet) : Except String DeletionVector :=
  if n = 0 then .ok ⟨acc⟩
  else
    match _h : takeWord32LE bs with
    | .error e => .error e
    | .ok (hi, bs') =>
      match _h' : decodeRoaring32C fromAscList bs' with
      | .error e => .error e
      | .ok (set, bs'') => decodeDVGo (subInt n 1) bs'' (AssocMap.insert (hi : Int) set acc)
termination_by bs.length
decreasing_by
  have h1 := takeWord32LE_shorter _h
  have h2 := decodeRoaring32C_shorter fromAscList _h'
  omega

def decodeDV (bs : ByteString) : Except String DeletionVector := do
  let (cnt, rest) ← takeWord64LE bs
  decodeDVGo fromAscList (wrap cnt) rest []

end

/-! ## Blobs -/

structure PuffinBlob where
  pbType : String
  pbFields : List Int
  pbSnapshotId : Int
  pbSequenceNumber : Int
  pbProperties : AssocMap String String
  pbCompressionCodec : Option String
  pbData : ByteString

def crcStep (c : UInt32) : UInt32 := if c &&& 1 ≠ 0 then (c >>> 1) ^^^ 0x82F63B78 else c >>> 1

def crcUpdate (crc : UInt32) (byte : UInt8) : UInt32 :=
  (List.range 8).foldl (fun c _ => crcStep c) (crc ^^^ byte.toUInt32)

def crc32c (bs : ByteString) : UInt32 := bs.foldl crcUpdate 0xFFFFFFFF ^^^ 0xFFFFFFFF

def toPuffinBlob (snapId seqNum referencedFieldId : Int) (dv : DeletionVector) : PuffinBlob :=
  let bitmap := encodeDV dv
  let lenBytes := leBytes 4 bitmap.length
  let crcBytes := leBytes 4 (crc32c bitmap).toNat
  ⟨"deletion-vector-v1", [referencedFieldId], snapId, seqNum, [], none, lenBytes ++ bitmap ++ crcBytes⟩

/-- The checksum is not looked at. -/
def fromPuffinBlob (fromAscList : List Nat → IntSet) (blob : PuffinBlob) : Except String DeletionVector := do
  let (len, rest) ← takeWord32LE blob.pbData
  decodeDV fromAscList (rest.take len)

/-! ## Positions -/

theorem position_eq (pos : Int) : pos = highKey pos * 2 ^ 32 + lowBits pos := by
  unfold highKey lowBits
  omega

theorem lowBits_lt (pos : Int) : lowBits pos < 2 ^ 32 := by
  unfold lowBits
  omega

theorem position_inj {pos pos' : Int} : highKey pos = highKey pos' ∧ lowBits pos = lowBits pos' ↔ pos = pos' := by
  constructor
  · rintro ⟨h1, h2⟩
    rw [position_eq pos, position_eq pos', h1, h2]
  · rintro rfl
    exact ⟨rfl, rfl⟩

variable {dv : DeletionVector}

theorem containsPosition_iff {pos : Int} : containsPosition pos dv = true ↔
    ∃ set, AssocMap.lookup (highKey pos) dv.dvBuckets = some set ∧ lowBits pos ∈ set := by
  unfold containsPosition
  cases AssocMap.lookup (highKey pos) dv.dvBuckets with
  | none => simp
  | some set => simp

theorem containsPosition_addPosition (p pos : Int) (dv : DeletionVector) :
    containsPosition p (addPosition pos dv) = true ↔ p = pos ∨ containsPosition p dv = true := by
  rw [containsPosition_iff, containsPosition_iff, addPosition, AssocMap.lookup_insertWith]
  split_ifs with hk
  · rw [← position_inj, hk]
    cases AssocMap.lookup (highKey pos) dv.dvBuckets with
    | none => simp [eq_comm]
    | some set => simp
  · have hne : p ≠ pos := fun h => hk (by rw [h])
    simp [hne]

/-- **The positions of a vector are those that were added.** -/
theorem containsPosition_addPositions (p : Int) (ps : List Int) :
    containsPosition p (addPositions ps emptyDV) = true ↔ p ∈ ps := by
  induction ps with
  | nil => simp [addPositions, emptyDV, containsPosition_iff, AssocMap.lookup]
  | cons pos ps ih =>
    rw [addPositions, List.foldr_cons, containsPosition_addPosition, List.mem_cons]
    exact or_congr Iff.rfl ih

/-- A high key of row positions, and their low bits. -/
structure IsBucket (e : Int × IntSet) : Prop where
  high : 0 ≤ e.1 ∧ e.1 < 2 ^ 31
  ascends : OrderedSet.Ascends e.2
  low : ∀ lo ∈ e.2, lo < 2 ^ 32
  nonempty : e.2 ≠ []

structure DeletionVector.Valid (dv : DeletionVector) : Prop where
  ascends : AssocMap.Ascending dv.dvBuckets
  buckets : ∀ e ∈ dv.dvBuckets, IsBucket e

theorem valid_addPosition (h : dv.Valid) {pos : Int} (hpos : 0 ≤ pos ∧ pos < 2 ^ 63) :
    (addPosition pos dv).Valid := by
  have hhigh : 0 ≤ highKey pos ∧ highKey pos < 2 ^ 31 := by
    unfold highKey
    omega
  have hnew : IsBucket (highKey pos, [lowBits pos]) :=
    ⟨hhigh, List.pairwise_singleton _ _, fun lo hlo => List.mem_singleton.1 hlo ▸ lowBits_lt pos, List.cons_ne_nil _ _⟩
  refine ⟨h.ascends.insertWith _ _ _, fun e he => ?_⟩
  rw [addPosition, AssocMap.insertWith] at he
  cases hl : AssocMap.lookup (highKey pos) dv.dvBuckets with
  | none =>
    rw [hl] at he
    rcases AssocMap.mem_insert he with rfl | he
    · exact hnew
    · exact h.buckets e he
  | some old =>
    rw [hl] at he
    rcases AssocMap.mem_insert he with rfl | he
    · have hold := h.buckets _ (AssocMap.mem_of_lookup hl)
      refine ⟨hhigh, hnew.ascends.union old, fun lo hlo => ?_, fun hnil => ?_⟩
      · rcases OrderedSet.mem_union.1 hlo with hlo | hlo
        · exact hnew.low lo hlo
        · exact hold.low lo hlo
      · have hmem : lowBits pos ∈ OrderedSet.union [lowBits pos] old :=
          OrderedSet.mem_union.2 (Or.inl List.mem_cons_self)
        rw [show OrderedSet.union [lowBits pos] old = [] from hnil] at hmem
        cases hmem
    · exact h.buckets e he

theorem valid_addPositions {ps : List Int} (h : ∀ p ∈ ps, 0 ≤ p ∧ p < 2 ^ 63) : (addPositions ps emptyDV).Valid := by
  induction ps with
  | nil => exact ⟨List.Pairwise.nil, fun _ he => absurd he List.not_mem_nil⟩
  | cons p ps ih => exact valid_addPosition (ih fun q hq => h q (List.mem_cons_of_mem _ hq)) (h p List.mem_cons_self)

/-- The high bits stand above the low ones. -/
theorem join_eq {hi : Int} {lo : Nat} (hhi : 0 ≤ hi ∧ hi < 2 ^ 31) (hlo : lo < 2 ^ 32) :
    Int.lor (wrap (hi * 2 ^ 32)) lo = hi * 2 ^ 32 + lo := by
  obtain ⟨n, rfl⟩ := Int.eq_ofNat_of_zero_le hhi.1
  have hwrap : wrap ((n : Int) * 2 ^ 32) = ((2 ^ 32 * n : Nat) : Int) := by
    unfold wrap
    push_cast
    omega
  rw [hwrap]
  change ((2 ^ 32 * n ||| lo : Nat) : Int) = _
  rw [← Nat.two_pow_add_eq_or_of_lt hlo]
  push_cast
  ring

theorem deletedPositions_eq (h : dv.Valid) :
    deletedPositions dv = dv.dvBuckets.flatMap fun e => e.2.map fun lo : Nat => e.1 * 2 ^ 32 + (lo : Int) := by
  refine List.flatMap_congr fun e he => List.map_congr_left fun lo hlo => ?_
  exact join_eq (h.buckets e he).high ((h.buckets e he).low lo hlo)

/-- **The positions are listed in ascending order**, each once. -/
theorem deletedPositions_ascends (h : dv.Valid) : (deletedPositions dv).Pairwise (· < ·) := by
  rw [deletedPositions_eq h, List.pairwise_flatMap]
  refine ⟨fun e he => List.pairwise_map.2 ((h.buckets e he).ascends.imp fun {_ _} hlt => by omega), ?_⟩
  refine h.ascends.imp_of_mem fun {e e'} he he' hlt x hx y hy => ?_
  obtain ⟨lo, hlo, rfl⟩ := List.mem_map.1 hx
  obtain ⟨lo', hlo', rfl⟩ := List.mem_map.1 hy
  have := (h.buckets e he).low lo hlo
  omega

theorem mem_deletedPositions (h : dv.Valid) (p : Int) :
    p ∈ deletedPositions dv ↔ containsPosition p dv = true := by
  rw [deletedPositions_eq h, containsPosition_iff, List.mem_flatMap]
  constructor
  · rintro ⟨e, he, hp⟩
    obtain ⟨lo, hlo, rfl⟩ := List.mem_map.1 hp
    have hlt := (h.buckets e he).low lo hlo
    have hhi : highKey (e.1 * 2 ^ 32 + lo) = e.1 := by
      unfold highKey
      omega
    have hlow : lowBits (e.1 * 2 ^ 32 + lo) = lo := by
      unfold lowBits
      omega
    rw [hhi, hlow]
    exact ⟨e.2, (h.ascends.mem_iff e.1 e.2).1 he, hlo⟩
  · rintro ⟨set, hset, hlo⟩
    exact ⟨_, AssocMap.mem_of_lookup hset, List.mem_map.2 ⟨lowBits p, hlo, (position_eq p).symm⟩⟩

end Wireform.Iceberg

/-
  The bytes of a deletion vector.

  * `Container`, `Roaring32`, `Entry`: the parts of a bitmap as the format has them, in their bounds;
  * `Declares`: the entries that a bitmap starts with;
  * `decodeDV_ok`: decoding succeeds exactly on the bitmaps that declare entries.
-/
import Wireform.Iceberg.DeletionVector

namespace Wireform.Iceberg

/-! ## The format -/

/-- An array container. -/
@[ext] structure Container where
  key : Nat
  lows : List Nat
  key_lt : key < 2 ^ 16
  nonempty : 0 < lows.length
  length_le : lows.length ≤ 2 ^ 16
  lows_lt : ∀ low ∈ lows, low < 2 ^ 16

def Container.row (c : Container) : ByteString := leBytes 2 c.key ++ leBytes 2 (c.lows.length - 1)

def Container.payload (c : Container) : ByteString := c.lows.flatMap (leBytes 2)

def Container.positions (c : Container) : List Nat := c.lows.map fun low => c.key * 0x10000 + low

/-- A bitmap of 32-bit positions.  The offsets are not read. -/
structure Roaring32 where
  cookie : Nat
  containers : List Container
  offsets : ByteString
  cookie_lt : cookie < 2 ^ 32
  cookie_ok : cookie &&& 0xFFFF = 0x3B30
  count_lt : containers.length < 2 ^ 32
  offsets_length : offsets.length = 4 * containers.length

def Roaring32.bytes (b : Roaring32) : ByteString :=
  leBytes 4 b.cookie ++ (leBytes 4 b.containers.length ++
    (b.containers.flatMap Container.row ++ (b.offsets ++ b.containers.flatMap Container.payload)))

def Roaring32.positions (b : Roaring32) : List Nat := b.containers.flatMap Container.positions

structure Entry where
  high : Nat
  high_lt : high < 2 ^ 32
  bitmap : Roaring32

def Entry.bytes (e : Entry) : ByteString := leBytes 4 e.high ++ e.bitmap.bytes

/-- The bytes start with these entries. -/
def Declares (bs : ByteString) (es : List Entry) : Prop :=
  es.length < 2 ^ 64 ∧ ∃ rest, bs = leBytes 8 es.length ++ (es.flatMap Entry.bytes ++ rest)

/-! ## Reading words -/

theorem word_iff {k n : Nat} {bs r : ByteString} :
    k ≤ bs.length ∧ leValue (bs.take k) = n ∧ bs.drop k = r ↔ n < 256 ^ k ∧ bs = leBytes k n ++ r := by
  constructor
  · rintro ⟨hk, rfl, rfl⟩
    have hlen : (bs.take k).length = k := List.length_take_of_le hk
    refine ⟨by simpa only [hlen] using leValue_lt (bs.take k), ?_⟩
    rw [← eq_leBytes hlen rfl, List.take_append_drop]
  · rintro ⟨hn, rfl⟩
    have hlen := length_leBytes k n
    refine ⟨by simp, ?_, List.drop_left' hlen⟩
    rw [List.take_left' hlen, leValue_leBytes, Nat.mod_eq_of_lt hn]

theorem takeWord32LE_ok {bs r : ByteString} {n : Nat} :
    takeWord32LE bs = .ok (n, r) ↔ n < 256 ^ 4 ∧ bs = leBytes 4 n ++ r := by
  rw [← word_iff, takeWord32LE]
  split_ifs with h
  · exact ⟨nofun, fun h' => absurd h'.1 (Nat.not_le.2 h)⟩
  · simp only [Except.ok.injEq, Prod.mk.injEq]
    exact ⟨fun h' => ⟨Nat.not_lt.1 h, h'⟩, And.right⟩

theorem takeWord64LE_ok {bs r : ByteString} {n : Nat} :
    takeWord64LE bs = .ok (n, r) ↔ n < 256 ^ 8 ∧ bs = leBytes 8 n ++ r := by
  rw [← word_iff, takeWord64LE]
  split_ifs with h
  · exact ⟨nofun, fun h' => absurd h'.1 (Nat.not_le.2 h)⟩
  · simp only [Except.ok.injEq, Prod.mk.injEq]
    exact ⟨fun h' => ⟨Nat.not_lt.1 h, h'⟩, And.right⟩

theorem roaringDecodeArray_payload {lows : List Nat} (h : ∀ low ∈ lows, low < 2 ^ 16) :
    roaringDecodeArray (lows.flatMap (leBytes 2)) lows.length = lows := by
  induction lows with
  | nil => rfl
  | cons low lows ih =>
    obtain ⟨-, hv, hd⟩ := (word_iff (k := 2)).2 ⟨h low List.mem_cons_self, List.flatMap_cons⟩
    rw [List.length_cons, roaringDecodeArray, hv, hd, ih fun l hl => h l (List.mem_cons_of_mem _ hl)]

theorem payload_roaringDecodeArray {bs : ByteString} {card : Nat} (h : bs.length = 2 * card) :
    (roaringDecodeArray bs card).length = card ∧ (∀ low ∈ roaringDecodeArray bs card, low < 2 ^ 16) ∧
      bs = (roaringDecodeArray bs card).flatMap (leBytes 2) := by
  induction card generalizing bs with
  | zero => exact ⟨rfl, fun _ hl => absurd hl List.not_mem_nil, List.length_eq_zero_iff.1 h⟩
  | succ card ih =>
    obtain ⟨hv, hbs⟩ := word_iff.1 ⟨(by omega : 2 ≤ bs.length), rfl, rfl⟩
    obtain ⟨h1, h2, h3⟩ := @ih (bs.drop 2) (by rw [List.length_drop]; omega)
    refine ⟨by rw [roaringDecodeArray, List.length_cons, h1], fun low hl => ?_, ?_⟩
    · rcases List.mem_cons.1 hl with rfl | hl
      · exact hv
      · exact h2 low hl
    · rw [roaringDecodeArray, List.flatMap_cons, ← h3]
      exact hbs

theorem unflatten4_row (c : Container) (kb : ByteString) :
    unflatten4 (c.row ++ kb) = (c.key, c.lows.length) :: unflatten4 kb := by
  have hkey := leValue_leBytes 2 c.key
  have hcard := leValue_leBytes 2 (c.lows.length - 1)
  have h1 : c.key < 256 ^ 2 := c.key_lt
  have h2 := c.length_le
  have h3 := c.nonempty
  rw [Nat.mod_eq_of_lt h1] at hkey
  rw [Nat.mod_eq_of_lt (by omega : c.lows.length - 1 < 256 ^ 2)] at hcard
  change (leValue (leBytes 2 c.key), leValue (leBytes 2 (c.lows.length - 1)) + 1) :: unflatten4 kb = _
  rw [hkey, hcard, Nat.sub_add_cancel h3]

/-! ## Containers -/

section
variable (fromAscList : List Nat → IntSet)

/-- The set that is built of containers. -/
def setOf (cs : List Container) (acc : IntSet) : IntSet :=
  cs.foldl (fun acc c => OrderedSet.union acc (fromAscList c.positions)) acc

theorem goContainers_read (cs : List Container) (rest : ByteString) (acc : IntSet) :
    goContainers fromAscList (unflatten4 (cs.flatMap Container.row)) (cs.flatMap Container.payload ++ rest) acc =
      .ok (setOf fromAscList cs acc, rest) := by
  induction cs generalizing acc with
  | nil => rfl
  | cons c cs ih =>
    have hlen : c.payload.length = 2 * c.lows.length := by
      simp [Container.payload, List.length_flatMap, Nat.mul_comm]
    rw [List.flatMap_cons, List.flatMap_cons, List.append_assoc, unflatten4_row, goContainers,
      if_neg (by rw [List.length_append]; omega), List.take_left' hlen, List.drop_left' hlen, Container.payload,
      roaringDecodeArray_payload c.lows_lt]
    exact ih _

theorem goContainers_parses {n : Nat} {kb tail rest : ByteString} {acc set : IntSet} (hkb : kb.length = 4 * n)
    (h : goContainers fromAscList (unflatten4 kb) tail acc = .ok (set, rest)) :
    ∃ cs : List Container, cs.length = n ∧ kb = cs.flatMap Container.row ∧
      tail = cs.flatMap Container.payload ++ rest := by
  induction n generalizing kb tail acc with
  | zero =>
    obtain rfl := List.length_eq_zero_iff.1 hkb
    cases h
    exact ⟨[], rfl, rfl, rfl⟩
  | succ n ih =>
    match kb, hkb with
    | b₀ :: b₁ :: b₂ :: b₃ :: kb, hkb =>
    rw [unflatten4, goContainers] at h
    split_ifs at h with hshort
    have hkey : leValue [b₀, b₁] < 256 ^ 2 := leValue_lt [b₀, b₁]
    have hcard : leValue [b₂, b₃] < 256 ^ 2 := leValue_lt [b₂, b₃]
    have hrow₁ : leBytes 2 (leValue [b₀, b₁]) = [b₀, b₁] := leBytes_leValue [b₀, b₁]
    have hrow₂ : leBytes 2 (leValue [b₂, b₃]) = [b₂, b₃] := leBytes_leValue [b₂, b₃]
    generalize leValue [b₀, b₁] = key at *
    generalize leValue [b₂, b₃] = card at *
    have hpay : (tail.take (2 * (card + 1))).length = 2 * (card + 1) :=
      List.length_take_of_le (Nat.not_lt.1 hshort)
    obtain ⟨hlen, hlows, hbytes⟩ := payload_roaringDecodeArray hpay
    have hkb' : kb.length = 4 * n := by
      simp only [List.length_cons] at hkb
      omega
    obtain ⟨cs, rfl, hrow, htail⟩ := ih hkb' h
    refine ⟨⟨key, roaringDecodeArray (tail.take (2 * (card + 1))) (card + 1), hkey,
      by rw [hlen]; exact Nat.succ_pos card, by rw [hlen]; exact hcard, hlows⟩ :: cs, rfl, ?_, ?_⟩
    · rw [List.flatMap_cons, ← hrow]
      simp only [Container.row, hlen, Nat.add_sub_cancel, hrow₁, hrow₂]
      rfl
    · rw [List.flatMap_cons, List.append_assoc, ← htail, Container.payload, ← hbytes, List.take_append_drop]

theorem decodeRoaring32C_bytes (b : Roaring32) (rest : ByteString) :
    decodeRoaring32C fromAscList (b.bytes ++ rest) = .ok (setOf fromAscList b.containers [], rest) := by
  have hrow : (b.containers.flatMap Container.row).length = 4 * b.containers.length := by
    simp [Container.row, List.length_flatMap, Nat.mul_comm]
  refine bind_ok.2 ⟨_, takeWord32LE_ok.2 ⟨b.cookie_lt, List.append_assoc _ _ _⟩, ?_⟩
  dsimp only
  rw [if_neg (not_not.2 b.cookie_ok)]
  refine bind_ok.2 ⟨_, takeWord32LE_ok.2 ⟨b.count_lt, List.append_assoc _ _ _⟩, ?_⟩
  dsimp only
  rw [if_neg (by have := b.offsets_length; simp only [List.length_append]; omega), List.append_assoc,
    List.take_left' hrow, List.drop_left' hrow, List.append_assoc, List.drop_left' b.offsets_length]
  exact goContainers_read fromAscList b.containers rest []

theorem decodeRoaring32C_parses {bs rest : ByteString} {set : IntSet}
    (h : decodeRoaring32C fromAscList bs = .ok (set, rest)) : ∃ b : Roaring32, bs = b.bytes ++ rest := by
  obtain ⟨⟨cookie, r1⟩, h1, hr1⟩ := bind_ok.1 h
  dsimp only at hr1
  split_ifs at hr1 with hcookie
  obtain ⟨⟨n, r2⟩, h2, hr2⟩ := bind_ok.1 hr1
  dsimp only at hr2
  split_ifs at hr2 with hshort
  obtain ⟨hc, rfl⟩ := takeWord32LE_ok.1 h1
  obtain ⟨hn, rfl⟩ := takeWord32LE_ok.1 h2
  have hkb : (r2.take (4 * n)).length = 4 * n := List.length_take_of_le (by omega)
  obtain ⟨cs, rfl, hrow, htail⟩ := goContainers_parses fromAscList hkb hr2
  refine ⟨⟨cookie, cs, (r2.drop (4 * cs.length)).take (4 * cs.length), hc, not_not.1 hcookie, hn,
    List.length_take_of_le (by rw [List.length_drop]; omega)⟩, ?_⟩
  simp only [Roaring32.bytes, List.append_assoc, List.append_cancel_left_eq]
  rw [← htail, List.take_append_drop, ← hrow, List.take_append_drop]

/-! ## Entries -/

def bucketsOf (es : List Entry) (acc : AssocMap Int IntSet) : AssocMap Int IntSet :=
  es.foldl (fun m e => AssocMap.insert (e.high : Int) (setOf fromAscList e.bitmap.containers []) m) acc

theorem decodeDVGo_entries (es : List Entry) (rest : ByteString) (acc : AssocMap Int IntSet) (h : es.length < 2 ^ 64) :
    decodeDVGo fromAscList (wrap es.length) (es.flatMap Entry.bytes ++ rest) acc =
      .ok ⟨bucketsOf fromAscList es acc⟩ := by
  induction es generalizing acc with
  | nil =>
    rw [decodeDVGo, if_pos (by decide)]
    rfl
  | cons e es ih =>
    rw [List.length_cons] at h
    have hne : wrap ((e :: es).length : Int) ≠ 0 := by
      unfold wrap
      rw [List.length_cons]
      push_cast
      omega
    have hpred : subInt (wrap ((e :: es).length : Int)) 1 = wrap (es.length : Int) := by
      unfold subInt wrap
      rw [List.length_cons]
      push_cast
      omega
    have h1 : takeWord32LE ((e :: es).flatMap Entry.bytes ++ rest) =
        .ok (e.high, e.bitmap.bytes ++ (es.flatMap Entry.bytes ++ rest)) :=
      takeWord32LE_ok.2 ⟨e.high_lt, by simp [Entry.bytes]⟩
    rw [decodeDVGo, if_neg hne]
    split
    · rename_i heq
      rw [h1] at heq
      cases heq
    · rename_i heq
      rw [h1] at heq
      cases heq
      split
      · rename_i heq
        rw [decodeRoaring32C_bytes] at heq
        cases heq
      · rename_i heq
        rw [decodeRoaring32C_bytes] at heq
        cases heq
        rw [hpred]
        exact ih _ (by omega)

theorem decodeDVGo_parses {k : Nat} {bs : ByteString} {acc : AssocMap Int IntSet} {dv : DeletionVector}
    (hk : k < 2 ^ 64) (h : decodeDVGo fromAscList (wrap k) bs acc = .ok dv) :
    ∃ (es : List Entry) (rest : ByteString), es.length = k ∧ bs = es.flatMap Entry.bytes ++ rest := by
  induction k generalizing bs acc with
  | zero => exact ⟨[], bs, rfl, rfl⟩
  | succ k ih =>
    have hne : wrap ((k + 1 : Nat) : Int) ≠ 0 := by
      unfold wrap
      push_cast
      omega
    have hpred : subInt (wrap ((k + 1 : Nat) : Int)) 1 = wrap (k : Int) := by
      unfold subInt wrap
      push_cast
      omega
    rw [decodeDVGo, if_neg hne] at h
    split at h
    · cases h
    · rename_i heq
      split at h
      · cases h
      · rename_i heq'
        obtain ⟨hhi, rfl⟩ := takeWord32LE_ok.1 heq
        obtain ⟨b, rfl⟩ := decodeRoaring32C_parses fromAscList heq'
        rw [hpred] at h
        obtain ⟨es, rest, rfl, rfl⟩ := ih (by omega) h
        exact ⟨⟨_, hhi, b⟩ :: es, rest, rfl, by simp [Entry.bytes]⟩

/-- **Decoding succeeds exactly on the bytes that declare entries**, and builds their buckets one after the other. -/
theorem decodeDV_ok {bs : ByteString} {dv : DeletionVector} :
    decodeDV fromAscList bs = .ok dv ↔ ∃ es, Declares bs es ∧ dv = ⟨bucketsOf fromAscList es []⟩ := by
  have hread : ∀ es, Declares bs es → decodeDV fromAscList bs = .ok ⟨bucketsOf fromAscList es []⟩ := by
    rintro es ⟨hlt, rest, rfl⟩
    exact bind_ok.2 ⟨_, takeWord64LE_ok.2 ⟨hlt, rfl⟩, decodeDVGo_entries fromAscList es rest [] hlt⟩
  constructor
  · intro h
    obtain ⟨⟨cnt, rest⟩, h1, h2⟩ := bind_ok.1 h
    obtain ⟨hcnt, rfl⟩ := takeWord64LE_ok.1 h1
    obtain ⟨es, rest, rfl, rfl⟩ := decodeDVGo_parses fromAscList hcnt h2
    have hd : Declares _ es := ⟨hcnt, rest, rfl⟩
    rw [hread es hd] at h
    exact ⟨es, hd, (Except.ok.inj h).symm⟩
  · rintro ⟨es, hd, rfl⟩
    exact hread es hd

end

end Wireform.Iceberg

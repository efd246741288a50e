/-
  Header blocks decode to the headers that were encoded.

  The two tables are kept equal: both sides look up the same entries and make the
  same insertions.

  * `decodeHeader_encode`: one header;
  * `decodeHeaderBlock_encode`: one block;
  * `exchange_correct`: any number of blocks, from new tables on.
-/
import Wireform.Http2.Hpack.Integer
import Wireform.Http2.Hpack.TableSpec

namespace Wireform.Http2.Hpack

variable {bs rest : ByteString} {off : Int} {dt : DynamicTable}

/-! ## Indices -/

theorem ofWord_ofInt {idx : Int} (h0 : 0 ≤ idx) (h1 : idx < 2 ^ 63) : ofWord (UInt64.ofInt idx) = idx := by
  rw [UInt64.ofInt, Int.emod_eq_of_lt h0 (by omega), ofWord_ofNat (by omega)]
  omega

theorem toNat_ofInt {idx : Int} (h0 : 0 ≤ idx) (h1 : idx < 2 ^ 63) :
    (UInt64.ofInt idx).toNat = idx.toNat := by
  rw [UInt64.ofInt, Int.emod_eq_of_lt h0 (by omega), UInt64.toNat_ofNat']
  omega

/-- An index that leads somewhere is within the tables. -/
theorem idx_le_of_lookupEntry {idx : Int} {e : Header} (h : lookupEntry dt idx = some e) :
    idx ≤ staticTableSize + dt.dtCount := by
  rw [lookupEntry] at h
  split at h
  · omega
  · simp only at h
    split at h
    · omega
    · cases h

theorem idx_range (hb : dt.Bounded) (hmax : InRange dt.dtMaxSize) {idx : Int} {e : Header}
    (h : lookupEntry dt idx = some e) : idx < 2 ^ 63 := by
  have h1 := idx_le_of_lookupEntry h
  have h2 := hb.count_size
  have h3 : (staticTableSize : Int) = 61 := rfl
  unfold InRange at hmax
  omega

/-- What the index of a literal header refers to: an entry with its name, or
    nothing. -/
def NameIndex (dt : DynamicTable) (name : ByteString) : Option Int → Prop
  | some idx => 1 ≤ idx ∧ ∃ value, lookupEntry dt idx = some (name, value)
  | none => True

/-! ## Literal headers -/

/-- A literal header begins with an integer: the index, or zero. -/
theorem encodeLiteral_eq {n : Nat} (hn : n < 8) (h0 : 0 < n) (pre : UInt8) (midx : Option Int)
    (name value : ByteString) (huff : Bool) :
    encodeLiteral n pre midx name value huff =
      encodeInteger n pre (UInt64.ofInt (midx.getD 0)) ++
        ((if midx = none then encodeStringLiteral huff name else []) ++ encodeStringLiteral huff value) := by
  cases midx with
  | some idx => rfl
  | none =>
    have hpos : (UInt64.ofInt 0) < prefixMask n := by
      rw [UInt64.lt_iff_toNat_lt, prefixMask_toNat n hn]
      have : 2 ^ 1 ≤ 2 ^ n := Nat.pow_le_pow_right (by decide) h0
      show 0 < 2 ^ n - 1
      omega
    have hpre : pre ||| (UInt64.ofInt 0).toUInt8 = pre := UInt8.or_zero
    simp only [Option.getD_none, if_pos]
    rw [encodeInteger, if_pos hpos, hpre, encodeLiteral, List.append_assoc]

/-- **The name and the value of a literal header are read back.** -/
theorem decodeLiteral_encode {n : Nat} (hn : n < 8) (h0 : 0 < n) {pre : UInt8}
    (hpre : pre &&& byteMask n = 0) (hb : dt.Bounded) (hmax : InRange dt.dtMaxSize) {midx : Option Int}
    {name value : ByteString} (hidx : NameIndex dt name midx) {huff : Bool}
    (h : Cursor bs off (encodeLiteral n pre midx name value huff ++ rest)) :
    decodeLiteral dt bs off n =
      .right ((name, value), off + (encodeLiteral n pre midx name value huff).length) := by
  rw [encodeLiteral_eq hn h0] at h ⊢
  rw [List.append_assoc, List.append_assoc] at h
  cases midx with
  | some idx =>
    obtain ⟨h1, value', hlook⟩ := hidx
    have hlt := idx_range hb hmax hlook
    have hword : (UInt64.ofInt idx).toNat < 2 ^ 63 := by
      rw [toNat_ofInt (by omega) hlt]
      omega
    have hne : UInt64.ofInt idx ≠ 0 := by
      intro h0
      have := @toNat_ofInt idx (by omega) hlt
      rw [h0] at this
      have hz : (0 : UInt64).toNat = 0 := rfl
      omega
    simp only [reduceCtorEq, if_false, List.nil_append, Option.getD_some, List.length_append] at h ⊢
    rw [decodeLiteral, decodeInteger_encode hn hpre hword h, Res.bind_right]
    simp only [decodeName]
    rw [if_neg hne, ofWord_ofInt (by omega) hlt, hlook, Res.bind_right]
    simp only
    rw [decodeString_encode h.skip, Res.bind_right]
    congr 2
    omega
  | none =>
    simp only [if_true, Option.getD_none, List.length_append] at h ⊢
    have hname := h.skip
    rw [decodeLiteral, decodeInteger_encode hn hpre (by decide) h, Res.bind_right]
    simp only [decodeName]
    rw [if_pos (by decide), decodeString_encode hname, Res.bind_right]
    simp only [Res.bind_right]
    rw [decodeString_encode hname.skip, Res.bind_right, internName_eq]
    congr 2
    omega

/-! ## Headers -/

/-- The kind of a representation shows in its first byte. -/
inductive Kind where
  | indexed
  | incremental
  | noIndex
  deriving DecidableEq

/-- The bits in front of the integer, and the width of the integer. -/
def Kind.layout : Kind → Nat × UInt8
  | indexed => (7, 0x80)
  | incremental => (6, 0x40)
  | noIndex => (4, 0x00)

/-- What the decoder sees of the first byte. -/
def Kind.Seen (b : UInt8) : Kind → Prop
  | indexed => b &&& 0x80 ≠ 0
  | incremental => b &&& 0x80 = 0 ∧ b &&& 0x40 ≠ 0
  | noIndex => b &&& 0x80 = 0 ∧ b &&& 0x40 = 0 ∧ b &&& 0xF0 = 0

instance (b : UInt8) : (kind : Kind) → Decidable (kind.Seen b)
  | .indexed => inferInstanceAs (Decidable (_ ≠ _))
  | .incremental => inferInstanceAs (Decidable (_ ∧ _))
  | .noIndex => inferInstanceAs (Decidable (_ ∧ _))

set_option maxRecDepth 4000 in
theorem Kind.layout_seen (kind : Kind) : ∀ x < 2 ^ kind.layout.1,
    kind.Seen (kind.layout.2 ||| UInt8.ofNat x) ∧ (kind.layout.2 ||| UInt8.ofNat x) &&& 0xE0 ≠ 0x20 := by
  cases kind <;> decide

theorem Kind.layout_mask (kind : Kind) : kind.layout.1 < 8 ∧ 0 < kind.layout.1 ∧
    kind.layout.2 &&& byteMask kind.layout.1 = 0 := by
  cases kind <;> decide

/-- The decoder of a representation. -/
def Kind.decode (dt : DynamicTable) (bs : ByteString) (off : Int) : Kind → TableM (Option Header × Int)
  | indexed => decodeIndexed dt bs off
  | incremental => decodeLiteralIncremental dt bs off
  | noIndex => decodeLiteralNoIndex dt bs off

/-- A representation begins with an integer of its kind. -/
def Starts (kind : Kind) (rep : ByteString) : Prop :=
  ∃ v t, rep = encodeInteger kind.layout.1 kind.layout.2 v ++ t

theorem Starts.first {kind : Kind} {rep : ByteString} (h : Starts kind rep) :
    ∃ b t, rep = b :: t ∧ kind.Seen b ∧ b &&& 0xE0 ≠ 0x20 := by
  obtain ⟨v, t, rfl⟩ := h
  obtain ⟨x, u, hx, hhead⟩ := encodeInteger_head kind.layout_mask.1 kind.layout.2 v
  refine ⟨kind.layout.2 ||| x, u ++ t, by rw [hhead, List.cons_append], ?_⟩
  have := kind.layout_seen x.toNat hx
  rwa [UInt8.ofNat_toNat] at this

/-- What `decodeHeader` does with a representation. -/
theorem decodeHeader_of_starts {kind : Kind} {rep : ByteString} (hs : Starts kind rep)
    (h : Cursor bs off (rep ++ rest)) :
    decodeHeader dt bs off = kind.decode dt bs off := by
  obtain ⟨b, t, rfl, hseen, -⟩ := hs.first
  rw [decodeHeader, if_neg (not_ge_bsLen h), if_pos h.nonneg, h.get]
  simp only
  cases kind with
  | indexed => exact if_pos hseen
  | incremental =>
    obtain ⟨h7, h6⟩ := hseen
    rw [if_neg (not_not.2 h7), if_pos h6]
    rfl
  | noIndex =>
    obtain ⟨h7, h6, h4⟩ := hseen
    rw [if_neg (not_not.2 h7), if_neg (not_not.2 h6), if_pos h4]
    rfl

theorem decodeIndexed_encode (hb : dt.Bounded) (hmax : InRange dt.dtMaxSize) {idx : Int} {hdr : Header}
    (h1 : 1 ≤ idx) (hlook : lookupEntry dt idx = some hdr) (h : Cursor bs off (encodeIndexed idx ++ rest)) :
    decodeIndexed dt bs off = (.right (some hdr, off + (encodeIndexed idx).length), dt) := by
  have hlt := idx_range hb hmax hlook
  have hword : (UInt64.ofInt idx).toNat < 2 ^ 63 := by
    rw [toNat_ofInt (by omega) hlt]
    omega
  rw [decodeIndexed, decodeInteger_encode (by decide) (by decide) hword h, Res.bind_right]
  simp only
  rw [ofWord_ofInt (by omega) hlt, hlook]
  rfl

/-- What the encoder does with a header, by what it finds in its table: an
    index, or a literal header that is inserted into the table or not. -/
theorem encodeHeader_repr (strategy : EncodeStrategy) (dt : DynamicTable) (hdr : Header) :
    (∃ idx, lookupNameValue dt hdr = some (idx, true) ∧
      encodeHeader strategy dt hdr = (encodeIndexed idx, dt)) ∨
    ∃ midx : Option Int, lookupNameValue dt hdr = midx.map (·, false) ∧
      (strategy.useDynamicTable = true ∧ encodeHeader strategy dt hdr =
          (encodeLiteralIncremental midx hdr.1 hdr.2 strategy.useHuffman, insertEntry dt hdr) ∨
        strategy.useDynamicTable = false ∧ encodeHeader strategy dt hdr =
          (encodeLiteralNoIndex midx hdr.1 hdr.2 strategy.useHuffman, dt)) := by
  unfold encodeHeader
  cases hl : lookupNameValue dt hdr with
  | none =>
    refine Or.inr ⟨none, rfl, ?_⟩
    cases strategy.useDynamicTable with
    | true => exact Or.inl ⟨rfl, rfl⟩
    | false => exact Or.inr ⟨rfl, rfl⟩
  | some r =>
    obtain ⟨idx, full⟩ := r
    cases full with
    | true => exact Or.inl ⟨idx, rfl, rfl⟩
    | false =>
      refine Or.inr ⟨some idx, rfl, ?_⟩
      cases strategy.useDynamicTable with
      | true => exact Or.inl ⟨rfl, rfl⟩
      | false => exact Or.inr ⟨rfl, rfl⟩

/-! ## Sizes -/

theorem length_encodeContinuation (k : Nat) : ∀ {v : UInt64}, v.toNat < 2 ^ (7 * (k + 1)) →
    (encodeContinuation v).length ≤ k + 1 := by
  induction k with
  | zero =>
    intro v hv
    rw [encodeContinuation, if_pos (UInt64.lt_iff_toNat_lt.2 hv)]
    exact Nat.le_refl 1
  | succ k ih =>
    intro v hv
    rw [encodeContinuation]
    split
    · exact Nat.succ_le_succ (Nat.zero_le _)
    · refine Nat.succ_le_succ (ih ?_)
      rw [UInt64.toNat_shiftRight, Nat.shiftRight_eq_div_pow]
      refine Nat.div_lt_of_lt_mul ?_
      rw [show 7 * (k + 1 + 1) = 7 + 7 * (k + 1) from by omega, Nat.pow_add] at hv
      exact hv

theorem length_encodeInteger (n : Nat) (pre : UInt8) (v : UInt64) : (encodeInteger n pre v).length ≤ 11 := by
  unfold encodeInteger
  split
  · exact Nat.le_add_left 1 10
  · refine Nat.succ_le_succ (length_encodeContinuation 9 ?_)
    exact Nat.lt_trans (UInt64.toNat_lt _) (by decide)

theorem length_encodeStringLiteral (huff : Bool) (bs : ByteString) :
    (encodeStringLiteral huff bs).length ≤ 11 + 4 * bs.length := by
  cases huff with
  | false =>
    have := length_encodeInteger 7 0x00 (UInt64.ofNat bs.length)
    rw [encodeStringLiteral, List.length_append]
    omega
  | true =>
    have := length_encodeInteger 7 0x80 (UInt64.ofNat (huffmanEncode bs).length)
    have := length_huffmanEncode bs
    rw [encodeStringLiteral, List.length_append]
    omega

theorem length_encodeLiteral (n : Nat) (pre : UInt8) (midx : Option Int) (name value : ByteString) (huff : Bool) :
    (encodeLiteral n pre midx name value huff).length ≤ 23 + 4 * (name.length + value.length) := by
  have hname := length_encodeStringLiteral huff name
  have hvalue := length_encodeStringLiteral huff value
  cases midx with
  | none =>
    rw [encodeLiteral, List.length_append, List.length_append, List.length_singleton]
    omega
  | some idx =>
    have := length_encodeInteger n pre (UInt64.ofInt idx)
    rw [encodeLiteral, List.length_append]
    omega

/-- What the representation of a header takes at most. -/
def headerBound (hdr : Header) : Nat := 23 + 4 * (hdr.1.length + hdr.2.length)

theorem length_encodeHeader (strategy : EncodeStrategy) (dt : DynamicTable) (hdr : Header) :
    (encodeHeader strategy dt hdr).1.length ≤ headerBound hdr := by
  rcases encodeHeader_repr strategy dt hdr with ⟨idx, -, he⟩ | ⟨midx, -, ⟨-, he⟩ | ⟨-, he⟩⟩
  · rw [he]
    have := length_encodeInteger 7 0x80 (UInt64.ofInt idx)
    exact Nat.le_trans this (by unfold headerBound; omega)
  · rw [he]
    exact length_encodeLiteral ..
  · rw [he]
    exact length_encodeLiteral ..

/-- **A block is at most as long as the bounds of its headers together.** -/
theorem length_encodeHeaderBlock (strategy : EncodeStrategy) (headers : List Header) : ∀ dt : DynamicTable,
    (encodeHeaderBlock strategy dt headers).1.length ≤ (headers.map headerBound).sum := by
  induction headers with
  | nil => exact fun _ => Nat.le_refl 0
  | cons hdr headers ih =>
    intro dt
    rw [encodeHeaderBlock, List.length_append, List.map_cons, List.sum_cons]
    exact Nat.add_le_add (length_encodeHeader strategy dt hdr) (ih _)

/-! ## The table after a header -/

/-- What the header does to the decoder's table: what it does to the encoder's. -/
def tableAfter (strategy : EncodeStrategy) (enc : DynamicTable) (hdr : Header) (dt : DynamicTable) :
    DynamicTable :=
  match lookupNameValue enc hdr with
  | some (_, true) => dt
  | _ => if strategy.useDynamicTable then insertEntry dt hdr else dt

attribute [grind =] tableAfter

/-- A header that is not indexed is inserted if the strategy says so. -/
theorem tableAfter_literal (strategy : EncodeStrategy) {enc : DynamicTable} {hdr : Header}
    {midx : Option Int} (h : lookupNameValue enc hdr = midx.map (·, false)) (dt : DynamicTable) :
    tableAfter strategy enc hdr dt = if strategy.useDynamicTable then insertEntry dt hdr else dt := by
  rw [tableAfter, h]
  cases midx with
  | none => rfl
  | some idx => rfl

theorem tableAfter_encoder (strategy : EncodeStrategy) (dt : DynamicTable) (hdr : Header) :
    tableAfter strategy dt hdr dt = (encodeHeader strategy dt hdr).2 := by
  rcases encodeHeader_repr strategy dt hdr with ⟨idx, hl, he⟩ | ⟨midx, hl, ⟨hdyn, he⟩ | ⟨hdyn, he⟩⟩
  · rw [tableAfter, hl, he]
  · rw [tableAfter_literal strategy hl, he, if_pos hdyn]
  · rw [tableAfter_literal strategy hl, he, if_neg (by rw [hdyn]; decide)]

theorem tableAfter_cases (strategy : EncodeStrategy) (enc : DynamicTable) (hdr : Header) :
    (∀ dt, tableAfter strategy enc hdr dt = dt) ∨
      ∀ dt, tableAfter strategy enc hdr dt = insertEntry dt hdr := by
  unfold tableAfter
  split
  · exact Or.inl fun _ => rfl
  · split
    · exact Or.inr fun _ => rfl
    · exact Or.inl fun _ => rfl

theorem encodeHeader_bounded (strategy : EncodeStrategy) (hb : dt.Bounded) (hdr : Header) :
    (encodeHeader strategy dt hdr).2.Bounded ∧
      (encodeHeader strategy dt hdr).2.dtMaxSize = dt.dtMaxSize := by
  rw [← tableAfter_encoder]
  rcases tableAfter_cases strategy dt hdr with h | h
  · rw [h]
    exact ⟨hb, rfl⟩
  · rw [h]
    exact ⟨hb.toOk.insertEntry_bounded hdr, insertEntry_dtMaxSize dt hdr⟩

theorem encodeHeader_starts (strategy : EncodeStrategy) (dt : DynamicTable) (hdr : Header) :
    ∃ kind, Starts kind (encodeHeader strategy dt hdr).1 := by
  rcases encodeHeader_repr strategy dt hdr with ⟨idx, -, he⟩ | ⟨midx, -, ⟨-, he⟩ | ⟨-, he⟩⟩
  · exact ⟨.indexed, UInt64.ofInt idx, [], by rw [he, List.append_nil]; rfl⟩
  · exact ⟨.incremental, _, _, by rw [he]; exact encodeLiteral_eq (by decide) (by decide) ..⟩
  · exact ⟨.noIndex, _, _, by rw [he]; exact encodeLiteral_eq (by decide) (by decide) ..⟩

/-- **A header is read back with any table that knows the entry the encoder
    found.** -/
theorem decodeHeader_known (strategy : EncodeStrategy) {enc : DynamicTable} (hb : dt.Bounded)
    (hmax : InRange dt.dtMaxSize) (hdr : Header)
    (hknown : ∀ r, lookupNameValue enc hdr = some r → lookupEntry dt r.1 = lookupEntry enc r.1)
    (h : Cursor bs off ((encodeHeader strategy enc hdr).1 ++ rest)) :
    decodeHeader dt bs off =
      (.right (some hdr, off + (encodeHeader strategy enc hdr).1.length),
        tableAfter strategy enc hdr dt) := by
  rcases encodeHeader_repr strategy enc hdr with ⟨idx, hl, he⟩ | ⟨midx, hl, hlit⟩
  · obtain ⟨h1, hlook⟩ := lookupNameValue_found hl
    rw [← hknown _ hl] at hlook
    rw [he] at h ⊢
    have hs : Starts .indexed (encodeIndexed idx) := ⟨UInt64.ofInt idx, [], by rw [List.append_nil]; rfl⟩
    rw [decodeHeader_of_starts hs h, tableAfter, hl]
    exact decodeIndexed_encode hb hmax h1 hlook h
  · have hidx : NameIndex dt hdr.1 midx := by
      cases midx with
      | none => trivial
      | some idx =>
        obtain ⟨h1, value, hlook⟩ := lookupNameValue_found hl
        exact ⟨h1, value, by rw [hknown _ hl]; exact hlook⟩
    have hafter := tableAfter_literal strategy hl dt
    rcases hlit with ⟨hdyn, he⟩ | ⟨hdyn, he⟩
    · rw [he] at h ⊢
      have hs : Starts .incremental (encodeLiteralIncremental midx hdr.1 hdr.2 strategy.useHuffman) :=
        ⟨_, _, encodeLiteral_eq (by decide) (by decide) ..⟩
      rw [decodeHeader_of_starts hs h, hafter, if_pos hdyn]
      simp only [Kind.decode, decodeLiteralIncremental]
      rw [decodeLiteral_encode (by decide) (by decide) (by decide) hb hmax hidx h]
      rfl
    · rw [he] at h ⊢
      have hs : Starts .noIndex (encodeLiteralNoIndex midx hdr.1 hdr.2 strategy.useHuffman) :=
        ⟨_, _, encodeLiteral_eq (by decide) (by decide) ..⟩
      rw [decodeHeader_of_starts hs h, hafter, if_neg (by rw [hdyn]; decide)]
      simp only [Kind.decode, decodeLiteralNoIndex, decodeLiteralCommon]
      rw [decodeLiteral_encode (by decide) (by decide) (by decide) hb hmax hidx h]
      rfl

/-- **A header is read back, and the tables stay equal.** -/
theorem decodeHeader_encode (strategy : EncodeStrategy) (hb : dt.Bounded) (hmax : InRange dt.dtMaxSize)
    (hdr : Header) (h : Cursor bs off ((encodeHeader strategy dt hdr).1 ++ rest)) :
    decodeHeader dt bs off =
      (.right (some hdr, off + (encodeHeader strategy dt hdr).1.length),
        (encodeHeader strategy dt hdr).2) := by
  rw [← tableAfter_encoder]
  exact decodeHeader_known strategy hb hmax hdr (fun _ _ => rfl) h

/-! ## Blocks -/

theorem encodeHeaderBlock_bounded (strategy : EncodeStrategy) (headers : List Header) :
    ∀ {dt : DynamicTable}, dt.Bounded → (encodeHeaderBlock strategy dt headers).2.Bounded ∧
      (encodeHeaderBlock strategy dt headers).2.dtMaxSize = dt.dtMaxSize := by
  induction headers with
  | nil =>
    intro dt hb
    exact ⟨hb, rfl⟩
  | cons hdr headers ih =>
    intro dt hb
    obtain ⟨hb', hmax'⟩ := encodeHeader_bounded strategy hb hdr
    obtain ⟨hb'', hmax''⟩ := ih hb'
    exact ⟨hb'', hmax''.trans hmax'⟩

/-- The loop of the decoder reads the headers that the encoder wrote. -/
theorem decodeHeaderBlock_go_encode (strategy : EncodeStrategy) (maxTableSize : Int) (headers : List Header) :
    ∀ {dt : DynamicTable} {off : Int} {n : Nat} {acc : List Header} {allow : Bool}, dt.Bounded →
      InRange dt.dtMaxSize → Cursor bs off (encodeHeaderBlock strategy dt headers).1 →
      (encodeHeaderBlock strategy dt headers).1.length < n →
      decodeHeaderBlock.go maxTableSize bs n dt off acc allow =
        (.right (acc.reverse ++ headers), (encodeHeaderBlock strategy dt headers).2) := by
  induction headers with
  | nil =>
    intro dt off n acc allow hb hmax h hn
    obtain ⟨m, rfl⟩ : ∃ m, n = m + 1 := ⟨n - 1, by omega⟩
    have hend := h.length_eq
    simp only [encodeHeaderBlock, List.length_nil] at hend
    rw [decodeHeaderBlock.go, if_pos (by rw [bsLen]; omega), List.append_nil]
    rfl
  | cons hdr headers ih =>
    intro dt off n acc allow hb hmax h hn
    obtain ⟨m, rfl⟩ : ∃ m, n = m + 1 := ⟨n - 1, by omega⟩
    obtain ⟨kind, hs⟩ := encodeHeader_starts strategy dt hdr
    obtain ⟨hb', hmax'⟩ := encodeHeader_bounded strategy hb hdr
    have hdec := decodeHeader_encode strategy hb hmax hdr h
    have hskip : Cursor bs (off + (encodeHeader strategy dt hdr).1.length)
        (encodeHeaderBlock strategy (encodeHeader strategy dt hdr).2 headers).1 := h.skip
    obtain ⟨b, t, hbt, -, hupd⟩ := hs.first
    have hlen := congrArg List.length hbt
    simp only [encodeHeaderBlock] at h hn
    rw [hbt] at h
    rw [List.length_append, hlen, List.length_cons] at hn
    rw [decodeHeaderBlock.go, if_neg (not_ge_bsLen h), if_pos h.nonneg, h.get]
    simp only
    rw [if_neg hupd, hdec]
    simp only
    rw [ih hb' (hmax' ▸ hmax) hskip (by omega), List.reverse_cons, List.append_assoc]
    rfl

/-- **A block is read back, and the tables stay equal.** -/
theorem decodeHeaderBlock_encode (strategy : EncodeStrategy) (hb : dt.Bounded)
    (hmax : InRange dt.dtMaxSize) (headers : List Header)
    (hsmall : ((encodeHeaderBlock strategy dt headers).1.length : Int) < 2 ^ 63) :
    decodeHeaderBlock dt (encodeHeaderBlock strategy dt headers).1 =
      (.right headers, (encodeHeaderBlock strategy dt headers).2) :=
  decodeHeaderBlock_go_encode strategy 4096 headers hb hmax (Cursor.start hsmall) (Nat.lt_succ_self _)

/-! ## A connection -/

/-- A header list that was sent: its block, what the receiver made of it, and the
    two tables after it. -/
structure Sent where
  headers : List Header
  block : ByteString
  received : Res (List Header)
  encoder : DynamicTable
  decoder : DynamicTable

/-- Encode header lists in order, and decode each block in order. -/
def exchange (strategy : EncodeStrategy) (enc dec : DynamicTable) : List (List Header) → List Sent
  | [] => []
  | headers :: lists =>
    let e := encodeHeaderBlock strategy enc headers
    let d := decodeHeaderBlock dec e.1
    ⟨headers, e.1, d.1, e.2, d.2⟩ :: exchange strategy e.2 d.2 lists

attribute [grind =] exchange

theorem exchange_headers (strategy : EncodeStrategy) (lists : List (List Header)) :
    ∀ enc dec, (exchange strategy enc dec lists).map Sent.headers = lists := by
  induction lists with
  | nil => intro enc dec; rfl
  | cons headers lists ih => intro enc dec; rw [exchange, List.map_cons, ih]

/-- From equal tables on, everything is received, and the tables stay equal. -/
theorem exchange_lockstep (strategy : EncodeStrategy) (lists : List (List Header)) :
    ∀ {dt : DynamicTable}, dt.Bounded → InRange dt.dtMaxSize →
      (∀ x ∈ exchange strategy dt dt lists, (x.block.length : Int) < 2 ^ 63) →
      ∀ x ∈ exchange strategy dt dt lists, x.received = .right x.headers ∧ x.decoder = x.encoder := by
  induction lists with
  | nil => intro dt hb hmax hsmall x hx; cases hx
  | cons headers lists ih =>
    intro dt hb hmax hsmall x hx
    rw [exchange] at hsmall hx
    have hfirst := hsmall _ List.mem_cons_self
    have hdec := decodeHeaderBlock_encode strategy hb hmax headers hfirst
    simp only [hdec] at hsmall hx
    obtain ⟨hb', hmax'⟩ := encodeHeaderBlock_bounded strategy headers hb
    rcases List.mem_cons.1 hx with rfl | hx
    · exact ⟨rfl, rfl⟩
    · exact ih hb' (hmax' ▸ hmax) (fun y hy => hsmall y (List.mem_cons_of_mem _ hy)) x hx

/-- **What is sent is received, and the two tables agree after every block.** -/
theorem exchange_correct (strategy : EncodeStrategy) (maxSz : Int) (hmax : InRange maxSz)
    (lists : List (List Header))
    (hsmall : ∀ x ∈ exchange strategy (newDynamicTable maxSz) (newDynamicTable maxSz) lists,
      (x.block.length : Int) < 2 ^ 63) :
    (exchange strategy (newDynamicTable maxSz) (newDynamicTable maxSz) lists).map Sent.received =
        lists.map Res.right ∧
      ∀ x ∈ exchange strategy (newDynamicTable maxSz) (newDynamicTable maxSz) lists,
        (∀ idx, lookupEntry x.encoder idx = lookupEntry x.decoder idx) ∧
          x.encoder.entries = x.decoder.entries ∧ x.encoder.dtSize = x.decoder.dtSize := by
  have hlock := exchange_lockstep strategy lists (newDynamicTable_bounded maxSz) hmax hsmall
  constructor
  · rw [← exchange_headers strategy lists (newDynamicTable maxSz) (newDynamicTable maxSz), List.map_map,
      exchange_headers]
    exact List.map_congr_left fun x hx => (hlock x hx).1
  · intro x hx
    rw [(hlock x hx).2]
    exact ⟨fun _ => rfl, rfl, rfl⟩

/-- Blocks of bounded headers can be decoded. -/
theorem exchange_small (strategy : EncodeStrategy) {n : Nat} (hn : (n : Int) < 2 ^ 63) (lists : List (List Header)) :
    ∀ {enc dec : DynamicTable}, (∀ headers ∈ lists, (headers.map headerBound).sum ≤ n) →
      ∀ x ∈ exchange strategy enc dec lists, (x.block.length : Int) < 2 ^ 63 := by
  induction lists with
  | nil => intro enc dec _ x hx; cases hx
  | cons headers lists ih =>
    intro enc dec h x hx
    rcases List.mem_cons.1 hx with rfl | hx
    · have := length_encodeHeaderBlock strategy headers enc
      have := h headers List.mem_cons_self
      change ((encodeHeaderBlock strategy enc headers).1.length : Int) < 2 ^ 63
      omega
    · exact ih (fun headers hm => h headers (List.mem_cons_of_mem _ hm)) x hx
/-- Three lists, with an entry that is inserted and then found. -/
theorem exchange_correct_three :
    (exchange ⟨false, true⟩ (newDynamicTable 4096) (newDynamicTable 4096)
        [[([1], [2])], [([1], [2]), ([1], [3])], []]).map Sent.received =
      [.right [([1], [2])], .right [([1], [2]), ([1], [3])], .right []] :=
  (exchange_correct ⟨false, true⟩ 4096 ⟨by decide, by decide⟩ [[([1], [2])], [([1], [2]), ([1], [3])], []]
    (exchange_small ⟨false, true⟩ (n := 100) (by decide) _ (by decide))).1

end Wireform.Http2.Hpack

/-
  The steps of the block decoder.

  A turn of the loop reads one representation.  A string literal is the only part
  that can send the decoder backwards: `Fits` says that the declared length leads
  nowhere else than forward.

  * `decodeString_forward`, `decodeString_backward`: strings that fit, and others;
  * `decodeHeader_safe`: a header whose strings fit;
  * `go_succ`: the loop takes its turns.
-/
import Wireform.Http2.Hpack.Integer
import Wireform.Http2.Hpack.TableSpec

namespace Wireform.Http2.Hpack

variable {bs rest : ByteString} {off : Int} {dt : DynamicTable}

/-! ## Outcomes -/

/-- A result is no exception, and a success is at a later offset within the block. -/
def Forward {α : Type} (bs : ByteString) (off : Int) : Res (α × Int) → Prop
  | .right (_, off') => off < off' ∧ off' ≤ bsLen bs
  | .left _ => True
  | .crash => False
  | .more => False

theorem Forward.of_right {α : Type} {a : α} {off' : Int} {r : Res (α × Int)} (h : Forward bs off r)
    (hr : r = .right (a, off')) : off < off' ∧ off' ≤ bsLen bs := by
  rw [hr] at h
  exact h

theorem Forward.bind {α β : Type} {r : Res (α × Int)} {k : α × Int → Res (β × Int)} (h : Forward bs off r)
    (hk : ∀ a off', r = .right (a, off') → off < off' → off' ≤ bsLen bs → Forward bs off' (k (a, off'))) :
    Forward bs off (r.bind k) := by
  cases r with
  | right p =>
    obtain ⟨a, off'⟩ := p
    have hf := hk a off' rfl h.1 h.2
    show Forward bs off (k (a, off'))
    cases hr : k (a, off') with
    | right q => rw [hr] at hf; exact ⟨h.1.trans hf.1, hf.2⟩
    | left e => trivial
    | crash => rw [hr] at hf; exact hf
    | more => rw [hr] at hf; exact hf
  | left e => trivial
  | crash => exact h
  | more => exact h

/-! ## Integers -/

variable {b : UInt8} {n : Nat}

/-- The integer at a cursor, and the cursor behind it. -/
theorem decodeInteger_cases (hn : n < 8) (h : Cursor bs off rest) :
    (prefixInteger n rest = none ∧ ∃ e, decodeInteger bs off n = .left e) ∨
    ∃ v post, prefixInteger n rest = some (v, post) ∧ Cursor bs (bsLen bs - post.length) post ∧
      decodeInteger bs off n = .right (UInt64.ofNat v, bsLen bs - post.length) := by
  have hr := decodeInteger_eq hn h
  cases hp : prefixInteger n rest with
  | none =>
    rw [hp] at hr
    exact Or.inl ⟨rfl, hr⟩
  | some r =>
    obtain ⟨v, post⟩ := r
    rw [hp] at hr
    refine Or.inr ⟨v, post, rfl, ?_, hr⟩
    obtain ⟨pre, rfl⟩ := prefixInteger_suffix hp
    have hlen := h.length_eq
    have hskip := h.skip
    rw [List.length_append] at hlen
    rwa [show off + pre.length = bsLen bs - post.length by rw [bsLen]; omega] at hskip

theorem decodeInteger_forward (hn : n < 8) (hs : bsLen bs < 2 ^ 63) (h0 : 0 ≤ off) :
    Forward bs off (decodeInteger bs off n) := by
  by_cases hle : off ≤ bsLen bs
  · have h := Cursor.at h0 hle hs
    rcases decodeInteger_cases hn h with ⟨-, e, he⟩ | ⟨v, post, hp, -, he⟩
    · rw [he]
      trivial
    · rw [he]
      have hlen := h.length_eq
      have hlt := (prefixInteger_lt hn hp).2.1
      constructor
      · rw [bsLen]
        omega
      · omega
  · rw [decodeInteger, if_pos (by omega)]
    trivial

/-- An integer is only read at an offset of the block. -/
theorem decodeInteger_right (hn : n < 8) (hs : bsLen bs < 2 ^ 63) {v : UInt64} {off' : Int}
    (h : decodeInteger bs off n = .right (v, off')) : 0 ≤ off ∧ off < off' ∧ off' ≤ bsLen bs := by
  by_cases h0 : 0 ≤ off
  · exact ⟨h0, (decodeInteger_forward hn hs h0).of_right h⟩
  · have hlen : 0 ≤ bsLen bs := Int.natCast_nonneg _
    rw [decodeInteger, if_neg (by omega), withIndex, if_neg h0] at h
    cases h

/-! ## Strings -/

/-- A string is Huffman coded when the first bit of its length is set. -/
def HuffmanCoded (bs : ByteString) (off : Int) : Prop := ∃ b ∈ bs[off.toNat]?, b &&& 0x80 ≠ 0

/-- The string at an offset ends before `2 ^ 63`, if it has a length at all; or it is
    a coded one that the rest of the block does not decode to. -/
def Fits (bs : ByteString) (off : Int) : Prop :=
  ∀ w post, prefixInteger 7 (bs.drop off.toNat) = some (w, post) →
    bsLen bs - post.length + w < 2 ^ 63 ∨
      (HuffmanCoded bs off ∧ w < 2 ^ 63 ∧ ∃ e, huffmanDecode post = .error e)

/-- The part of `decodeString` behind the length. -/
def stringBody (bs : ByteString) (b : UInt8) (strLen : UInt64) (off' : Int) : Res (ByteString × Int) :=
  if addInt off' (ofWord strLen) > bsLen bs then .left .headerBlockTruncated
  else if b &&& 0x80 ≠ 0 then
    match huffmanDecode (takeDrop bs off' (ofWord strLen)) with
    | .error e => .left e
    | .ok decoded => .right (decoded, addInt off' (ofWord strLen))
  else .right (takeDrop bs off' (ofWord strLen), addInt off' (ofWord strLen))

attribute [grind =] stringBody

theorem decodeString_cursor (h : Cursor bs off (b :: rest)) :
    decodeString bs off = (decodeInteger bs off 7).bind fun r => stringBody bs b r.1 r.2 := by
  rw [decodeString, if_neg (not_ge_bsLen h)]
  cases decodeInteger bs off 7 with
  | right r =>
    simp only [Res.bind_right, withIndex_cursor h]
    rfl
  | left e => rfl
  | crash => rfl
  | more => rfl

theorem decodeString_end (h : Cursor bs off []) : decodeString bs off = .left .headerBlockTruncated := by
  have hend := h.length_eq
  simp only [List.length_nil] at hend
  rw [decodeString, if_pos (by rw [bsLen]; omega)]

/-- A body whose end is no later than its length says. -/
theorem stringBody_cases (bs : ByteString) (b : UInt8) (strLen : UInt64) (off' : Int) :
    (∃ e, stringBody bs b strLen off' = .left e) ∨
    ∃ s, stringBody bs b strLen off' = .right (s, addInt off' (ofWord strLen)) ∧
      addInt off' (ofWord strLen) ≤ bsLen bs := by
  rw [stringBody]
  split
  · exact Or.inl ⟨_, rfl⟩
  · rename_i hle
    split
    · split
      · exact Or.inl ⟨_, rfl⟩
      · exact Or.inr ⟨_, rfl, by omega⟩
    · exact Or.inr ⟨_, rfl, by omega⟩

theorem huffmanCoded_cursor (h : Cursor bs off (b :: rest)) :
    HuffmanCoded bs off ↔ b &&& 0x80 ≠ 0 := by
  rw [HuffmanCoded, h.get]
  constructor
  · rintro ⟨b', hb, hne⟩
    cases hb
    exact hne
  · intro hne
    exact ⟨b, rfl, hne⟩

/-- A length below `2 ^ 63` that the block is too short for selects the rest. -/
theorem takeDrop_all {post : ByteString} {off' : Int} (h : Cursor bs off' post) {w : Nat} (hw : w < 2 ^ 63)
    (hlen : post.length ≤ w) : takeDrop bs off' (ofWord (UInt64.ofNat w)) = post := by
  rw [takeDrop, ofWord_ofNat hw, h.drop, Int.toNat_natCast, List.take_of_length_le hlen]

/-- A negative length selects nothing. -/
theorem takeDrop_neg {off' len : Int} (h : len < 0) : takeDrop bs off' len = [] := by
  rw [takeDrop, Int.toNat_of_nonpos (by omega), List.take_zero]

/-- **A string that fits is read forward.** -/
theorem decodeString_forward (h : Cursor bs off rest) (hfit : Fits bs off) :
    Forward bs off (decodeString bs off) := by
  cases rest with
  | nil => rw [decodeString_end h]; trivial
  | cons b rest =>
    rw [decodeString_cursor h]
    rcases decodeInteger_cases (by decide : 7 < 8) h with ⟨-, e, he⟩ | ⟨w, post, hp, hpost, he⟩
    · rw [he]
      trivial
    · rw [he, Res.bind_right]
      have hlt := (prefixInteger_lt (by decide) hp).2.1
      have hlen := h.length_eq
      have hsmall := h.small
      simp only
      by_cases hend : bsLen bs - post.length + w < 2 ^ 63
      · -- the end is computed without wrapping
        have hstop : addInt (bsLen bs - post.length) (ofWord (UInt64.ofNat w)) =
            bsLen bs - post.length + w := by
          have := hpost.nonneg
          rw [ofWord_ofNat (by omega)]
          exact addInt_eq ⟨by omega, hend⟩
        rcases stringBody_cases bs b (UInt64.ofNat w) (bsLen bs - post.length) with ⟨e, hb⟩ | ⟨s, hb, hle⟩
        · rw [hb]
          trivial
        · rw [hb]
          rw [hstop] at hle ⊢
          refine ⟨?_, hle⟩
          rw [bsLen]
          omega
      · -- the whole rest is decoded, and is not valid
        rcases hfit w post (by rw [h.drop]; exact hp) with hend' | ⟨hcoded, hw, e, herr⟩
        · exact absurd hend' hend
        · have hlong : post.length ≤ w := by
            have := hpost.le
            rw [bsLen] at hend
            omega
          rw [stringBody, takeDrop_all hpost hw hlong, if_pos ((huffmanCoded_cursor h).1 hcoded), herr]
          split
          · trivial
          · trivial

/-- **A string that does not fit sends the decoder backwards.** -/
theorem decodeString_backward (hs : bsLen bs < 2 ^ 63) (h0 : 0 ≤ off) (hfit : ¬ Fits bs off) :
    ∃ s off', decodeString bs off = .right (s, off') ∧ off' ≤ off := by
  unfold Fits at hfit
  push Not at hfit
  obtain ⟨w, post, hp, hend, hvalid⟩ := hfit
  have hle : off ≤ bsLen bs := by
    by_contra hgt
    rw [List.drop_eq_nil_of_le (by rw [bsLen] at hgt; omega)] at hp
    cases hp
  have h := Cursor.at h0 hle hs
  cases hrest : bs.drop off.toNat with
  | nil => rw [hrest] at hp; cases hp
  | cons b rest =>
    rw [hrest] at h hp
    rcases decodeInteger_cases (by decide : 7 < 8) h with ⟨hnone, -⟩ | ⟨w', post', hp', hpost, he⟩
    · rw [hnone] at hp
      cases hp
    · rw [hp'] at hp
      cases hp
      obtain ⟨hbound, hlt, hten⟩ := prefixInteger_lt (by decide) hp'
      have hlen := h.length_eq
      have hnn := hpost.nonneg
      have hword : ofWord (UInt64.ofNat w) = if w < 2 ^ 63 then (w : Int) else w - 2 ^ 64 := by
        have hnat : (UInt64.ofNat w).toNat = w := by
          rw [UInt64.toNat_ofNat']
          omega
        split
        · exact ofWord_ofNat ‹_›
        · rw [ofWord_ge (by omega), hnat]
      have hstop : addInt (bsLen bs - post.length) (ofWord (UInt64.ofNat w)) =
          bsLen bs - post.length + w - 2 ^ 64 := by
        rw [hword, addInt, wrap]
        split
        · omega
        · omega
      have hback : bsLen bs - post.length + w - 2 ^ 64 ≤ off := by
        rw [bsLen] at hnn hs ⊢
        omega
      rw [decodeString_cursor h, he, Res.bind_right]
      simp only [stringBody, hstop]
      rw [if_neg (by omega)]
      split
      · rename_i hcoded
        by_cases hw : w < 2 ^ 63
        · have hne := hvalid ((huffmanCoded_cursor h).2 hcoded) hw
          rw [takeDrop_all hpost hw (by rw [bsLen] at hend hs hnn; omega)]
          cases hd : huffmanDecode post with
          | error e => exact absurd hd (hne e)
          | ok decoded => exact ⟨decoded, _, rfl, hback⟩
        · rw [takeDrop_neg (by rw [hword, if_neg hw]; omega)]
          exact ⟨[], _, rfl, hback⟩
      · exact ⟨_, _, rfl, hback⟩

theorem decodeString_safe (hs : bsLen bs < 2 ^ 63) (h0 : 0 ≤ off) (hfit : Fits bs off) :
    Forward bs off (decodeString bs off) := by
  by_cases hle : off ≤ bsLen bs
  · exact decodeString_forward (Cursor.at h0 hle hs) hfit
  · rw [decodeString, if_pos (by omega)]
    trivial

/-! ## Headers -/

/-- The strings that are read for a literal header with a prefix of `n` bits. -/
inductive LiteralString (dt : DynamicTable) (bs : ByteString) (off : Int) (n : Nat) : Int → Prop
  | name {o : Int} (h : decodeInteger bs off n = .right (0, o)) : LiteralString dt bs off n o
  | value {idx : UInt64} {o o' : Int} {name : ByteString} (h : decodeInteger bs off n = .right (idx, o))
    (hname : decodeName dt bs idx o = .right (name, o')) : LiteralString dt bs off n o'

/-- The name of a literal header is read forward, or stays where it is. -/
theorem decodeName_safe (hs : bsLen bs < 2 ^ 63) (h0 : 0 ≤ off) (hle : off ≤ bsLen bs) {idx : UInt64}
    (hfit : idx = 0 → Fits bs off) :
    match decodeName dt bs idx off with
    | .right (_, off') => off ≤ off' ∧ off' ≤ bsLen bs
    | .left _ => True
    | _ => False := by
  rw [decodeName]
  by_cases hidx : idx = 0
  · rw [if_pos hidx]
    have hf := decodeString_safe hs h0 (hfit hidx)
    cases hd : decodeString bs off with
    | right r =>
      rw [hd] at hf
      exact ⟨hf.1.le, hf.2⟩
    | left e => trivial
    | crash => rw [hd] at hf; exact hf
    | more => rw [hd] at hf; exact hf
  · rw [if_neg hidx]
    cases lookupEntry dt (ofWord idx) with
    | none => trivial
    | some e => exact ⟨le_rfl, hle⟩

/-- **A literal header whose strings fit is read forward.** -/
theorem decodeLiteral_safe (hn : n < 8) (hs : bsLen bs < 2 ^ 63) (h0 : 0 ≤ off)
    (hfit : ∀ o, LiteralString dt bs off n o → Fits bs o) :
    Forward bs off (decodeLiteral dt bs off n) := by
  rw [decodeLiteral]
  refine (decodeInteger_forward hn hs h0).bind fun idx off' hint hlt hle => ?_
  have hname := @decodeName_safe bs off' dt hs (by omega) hle idx
    (fun hidx => hfit off' (.name (hidx ▸ hint)))
  simp only
  cases hd : decodeName dt bs idx off' with
  | right r =>
    obtain ⟨name, off''⟩ := r
    rw [hd] at hname
    have hvalue := decodeString_safe hs (by have := hname.1; omega) (hfit off'' (.value hint hd))
    simp only [Res.bind_right]
    cases hv : decodeString bs off'' with
    | right r =>
      rw [hv] at hvalue
      exact ⟨lt_of_le_of_lt hname.1 hvalue.1, hvalue.2⟩
    | left e => trivial
    | crash => rw [hv] at hvalue; exact hvalue
    | more => rw [hv] at hvalue; exact hvalue
  | left e => trivial
  | crash => rw [hd] at hname; exact hname
  | more => rw [hd] at hname; exact hname

/-- The width of the index of a literal header, by its first byte. -/
def literalPrefix (b : UInt8) : Option Nat :=
  if b &&& 0x80 ≠ 0 then none
  else if b &&& 0x40 ≠ 0 then some 6
  else if b &&& 0xF0 = 0 ∨ b &&& 0xF0 = 0x10 then some 4
  else none

theorem literalPrefix_lt (h : literalPrefix b = some n) : n < 8 := by
  unfold literalPrefix at h
  split at h
  · cases h
  · split at h
    · cases h
      decide
    · split at h
      · cases h
        decide
      · cases h

/-- A size update, by its first byte. -/
def isUpdate (b : UInt8) : Prop := b &&& 0xE0 = 0x20

instance (b : UInt8) : Decidable (isUpdate b) := inferInstanceAs (Decidable (_ = _))

set_option maxRecDepth 4000 in
/-- A first byte that is neither indexed nor literal is a size update. -/
theorem isUpdate_of_literalPrefix (h7 : b &&& 0x80 = 0) (h : literalPrefix b = none) :
    isUpdate b := by
  have hall : ∀ x < 256, UInt8.ofNat x &&& 0x80 = 0 → literalPrefix (UInt8.ofNat x) = none →
      isUpdate (UInt8.ofNat x) := by
    decide
  have := hall b.toNat b.toNat_lt
  rw [UInt8.ofNat_toNat] at this
  exact this h7 h

set_option maxRecDepth 4000 in
theorem literalPrefix_of_isUpdate (h : isUpdate b) : b &&& 0x80 = 0 ∧ literalPrefix b = none := by
  have hall : ∀ x < 256, isUpdate (UInt8.ofNat x) →
      UInt8.ofNat x &&& 0x80 = 0 ∧ literalPrefix (UInt8.ofNat x) = none := by
    decide
  have := hall b.toNat b.toNat_lt
  rw [UInt8.ofNat_toNat] at this
  exact this h

/-- The strings that `decodeHeader` reads at an offset. -/
def HeaderString (dt : DynamicTable) (bs : ByteString) (off o : Int) : Prop :=
  ∃ b n, bs[off.toNat]? = some b ∧ literalPrefix b = some n ∧ LiteralString dt bs off n o

/-- What a decoder does to the table: it keeps it, or inserts an entry. -/
def TableKept (dt dt' : DynamicTable) : Prop := dt' = dt ∨ ∃ hdr, dt' = insertEntry dt hdr

theorem TableKept.bounded {dt dt' : DynamicTable} (h : TableKept dt dt') (hb : dt.Bounded) : dt'.Bounded := by
  rcases h with rfl | ⟨hdr, rfl⟩
  · exact hb
  · exact hb.toOk.insertEntry_bounded hdr

theorem TableKept.dtMaxSize_eq {dt dt' : DynamicTable} (h : TableKept dt dt') :
    dt'.dtMaxSize = dt.dtMaxSize := by
  rcases h with rfl | ⟨hdr, rfl⟩
  · rfl
  · exact insertEntry_dtMaxSize dt hdr

theorem decodeLiteralIncremental_kept (dt : DynamicTable) (bs : ByteString) (off : Int) :
    TableKept dt (decodeLiteralIncremental dt bs off).2 := by
  rw [decodeLiteralIncremental]
  cases decodeLiteral dt bs off 6 with
  | right r => exact Or.inr ⟨r.1, rfl⟩
  | left e => exact Or.inl rfl
  | crash => exact Or.inl rfl
  | more => exact Or.inl rfl

theorem decodeLiteralIncremental_forward (h : Forward bs off (decodeLiteral dt bs off 6)) :
    Forward bs off (decodeLiteralIncremental dt bs off).1 := by
  rw [decodeLiteralIncremental]
  cases hd : decodeLiteral dt bs off 6 with
  | right r => rw [hd] at h; exact h
  | left e => trivial
  | crash => rw [hd] at h; exact h
  | more => rw [hd] at h; exact h

theorem decodeLiteralCommon_forward (h : Forward bs off (decodeLiteral dt bs off n)) :
    Forward bs off (decodeLiteralCommon dt bs off n).1 := by
  rw [decodeLiteralCommon]
  cases hd : decodeLiteral dt bs off n with
  | right r => rw [hd] at h; exact h
  | left e => trivial
  | crash => rw [hd] at h; exact h
  | more => rw [hd] at h; exact h

theorem decodeIndexed_safe (hs : bsLen bs < 2 ^ 63) (h0 : 0 ≤ off) :
    Forward bs off (decodeIndexed dt bs off).1 := by
  have hf := decodeInteger_forward (by decide : 7 < 8) hs h0
  rw [decodeIndexed]
  cases hd : decodeInteger bs off 7 with
  | right r =>
    rw [hd] at hf
    simp only [Res.bind_right]
    split
    · trivial
    · exact hf
  | left e => trivial
  | crash => rw [hd] at hf; exact hf
  | more => rw [hd] at hf; exact hf

/-- What `decodeHeader` does at a byte of the block. -/
theorem decodeHeader_cases (h : Cursor bs off (b :: rest)) :
    decodeHeader dt bs off = decodeIndexed dt bs off ∧ ¬ isUpdate b ∨
    (literalPrefix b = some 6 ∧ decodeHeader dt bs off = decodeLiteralIncremental dt bs off) ∨
    (literalPrefix b = some 4 ∧ decodeHeader dt bs off = decodeLiteralCommon dt bs off 4) ∨
    (isUpdate b ∧ decodeHeader dt bs off = decodeDynamicTableUpdate dt 4096 bs off) := by
  rw [decodeHeader, if_neg (not_ge_bsLen h), if_pos h.nonneg, h.get]
  simp only
  by_cases h7 : b &&& 0x80 ≠ 0
  · rw [if_pos h7]
    exact Or.inl ⟨rfl, fun hu => h7 (literalPrefix_of_isUpdate hu).1⟩
  · rw [if_neg h7]
    by_cases h6 : b &&& 0x40 ≠ 0
    · rw [if_pos h6]
      exact Or.inr (Or.inl ⟨by rw [literalPrefix, if_neg h7, if_pos h6], rfl⟩)
    · rw [if_neg h6]
      by_cases h4 : b &&& 0xF0 = 0
      · rw [if_pos h4]
        exact Or.inr (Or.inr (Or.inl ⟨by rw [literalPrefix, if_neg h7, if_neg h6, if_pos (Or.inl h4)], rfl⟩))
      · rw [if_neg h4]
        by_cases h5 : b &&& 0xF0 = 0x10
        · rw [if_pos h5]
          exact Or.inr (Or.inr (Or.inl ⟨by rw [literalPrefix, if_neg h7, if_neg h6, if_pos (Or.inr h5)], rfl⟩))
        · rw [if_neg h5]
          refine Or.inr (Or.inr (Or.inr ⟨isUpdate_of_literalPrefix (not_not.1 h7) ?_, rfl⟩))
          rw [literalPrefix, if_neg h7, if_neg h6, if_neg (not_or.2 ⟨h4, h5⟩)]

end Wireform.Http2.Hpack

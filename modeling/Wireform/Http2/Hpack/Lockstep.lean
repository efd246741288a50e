/-
  The encoder's table and the peer's when only the encoder's limit changes.

  Both tables hold a beginning of the list of everything that was inserted, the
  newest first: the peer's as much as fits in the size it was told, the encoder's
  as much as its own limits left.  An entry that the encoder finds is in the
  peer's table exactly if it fits in that size together with everything newer
  (`Held`), whatever limits the encoder had.

  * `decodeHeader_held`, `decodeHeader_lost`: one header;
  * `decodeHeaderBlock_held`, `decodeHeaderBlock_lost`: one block.
-/
import Wireform.Http2.Hpack.RoundTrip

namespace Wireform.Http2.Hpack

variable {bs rest : ByteString} {off : Int} {told : Int} {enc peer : DynamicTable}

/-! ## Beginnings of a list of entries -/

theorem fitting_initial (t : Int) (es : List Header) : fitting t es <+: es := by
  induction es generalizing t with
  | nil => exact List.prefix_rfl
  | cons e es ih =>
    rw [fitting]
    split
    · exact (List.cons_prefix_cons).2 ⟨rfl, ih _⟩
    · exact List.nil_prefix

/-- An entry is kept if it fits together with everything before it. -/
theorem fitting_getElem? (t : Int) (es : List Header) (i : Nat) :
    (fitting t es)[i]? = if totalSize (es.take (i + 1)) ≤ t then es[i]? else none := by
  induction es generalizing t i with
  | nil => simp [fitting]
  | cons e es ih =>
    have hnn := totalSize_nonneg (es.take i)
    rw [fitting, List.take_succ_cons, totalSize_cons]
    split
    · rename_i he
      cases i with
      | zero =>
        rw [if_pos (by rw [List.take_zero, totalSize_nil]; omega)]
        rfl
      | succ i =>
        rw [List.getElem?_cons_succ, List.getElem?_cons_succ, ih]
        exact if_congr (by omega) rfl rfl
    · rename_i he
      rw [if_neg (by omega), List.getElem?_nil]

theorem fitting_fitting {t t' : Int} (h : t ≤ t') (es : List Header) :
    fitting t (fitting t' es) = fitting t es := by
  induction es generalizing t t' with
  | nil => rfl
  | cons e es ih =>
    by_cases he : entrySize e ≤ t
    · rw [fitting, if_pos (he.trans h), fitting, fitting, if_pos he, if_pos he, ih (by omega)]
    · rw [fitting]
      split
      · rw [fitting, fitting, if_neg he, if_neg he]
      · rw [fitting, fitting, if_neg he]

/-- A table of a fixed limit holds what fits of everything that was inserted. -/
theorem insertList_fitting (m : Int) (entry : Header) (es : List Header) :
    insertList m entry (fitting m es) = fitting m (entry :: es) := by
  have := entrySize_ge entry
  rw [insertList, fitting]
  split
  · rw [if_neg (by omega)]
  · rw [if_pos (by omega), fitting_fitting (by omega)]

theorem insertList_prefix (m : Int) (entry : Header) {es hist : List Header} (h : es <+: hist) :
    insertList m entry es <+: entry :: hist := by
  rw [insertList]
  split
  · exact List.nil_prefix
  · exact (List.cons_prefix_cons).2 ⟨rfl, (fitting_initial _ _).trans h⟩

/-! ## The two tables -/

/-- The encoder's table and the peer's, whose limit is `told`: both hold a
    beginning of what was inserted. -/
structure Shared (told : Int) (enc peer : DynamicTable) : Prop where
  enc_bounded : enc.Bounded
  enc_range : InRange enc.dtMaxSize
  peer_bounded : peer.Bounded
  peer_max : peer.dtMaxSize = told
  history : ∃ hist, enc.entries <+: hist ∧ peer.entries = fitting told hist

theorem newDynamicTable_shared {told : Int} (hr : InRange told) :
    Shared told (newDynamicTable told) (newDynamicTable told) where
  enc_bounded := newDynamicTable_bounded told
  enc_range := hr
  peer_bounded := newDynamicTable_bounded told
  peer_max := rfl
  history := ⟨[], List.prefix_rfl, rfl⟩

/-- Another limit for the encoder. -/
theorem Shared.setMaxSize (h : Shared told enc peer) {newMax : Int} (hr : InRange newMax) :
    Shared told (setMaxSize enc newMax) peer where
  enc_bounded := h.enc_bounded.toOk.setMaxSize_bounded newMax
  enc_range := by rw [setMaxSize_dtMaxSize]; exact hr
  peer_bounded := h.peer_bounded
  peer_max := h.peer_max
  history := by
    obtain ⟨hist, henc, hpeer⟩ := h.history
    rw [setMaxSize_entries h.enc_bounded.toOk]
    exact ⟨hist, (fitting_initial _ _).trans henc, hpeer⟩

theorem Shared.insertEntry (h : Shared told enc peer) (hdr : Header) :
    Shared told (insertEntry enc hdr) (insertEntry peer hdr) where
  enc_bounded := h.enc_bounded.toOk.insertEntry_bounded hdr
  enc_range := by rw [insertEntry_dtMaxSize]; exact h.enc_range
  peer_bounded := h.peer_bounded.toOk.insertEntry_bounded hdr
  peer_max := by rw [insertEntry_dtMaxSize]; exact h.peer_max
  history := by
    obtain ⟨hist, henc, hpeer⟩ := h.history
    rw [insertEntry_entries h.enc_bounded.toOk, insertEntry_entries h.peer_bounded.toOk, hpeer, h.peer_max]
    exact ⟨hdr :: hist, insertList_prefix _ hdr henc, insertList_fitting told hdr hist⟩

theorem Shared.tableAfter (h : Shared told enc peer) (strategy : EncodeStrategy) (hdr : Header) :
    Shared told (encodeHeader strategy enc hdr).2 (tableAfter strategy enc hdr peer) := by
  rw [← tableAfter_encoder]
  rcases tableAfter_cases strategy enc hdr with ht | ht
  · rw [ht, ht]
    exact h
  · rw [ht, ht]
    exact h.insertEntry hdr

/-! ## Entries that the peer still holds -/

/-- The entry at an index of the encoder's table fits in the size the peer was
    told, together with everything newer. -/
def Held (told : Int) (enc : DynamicTable) (idx : Int) : Prop :=
  totalSize (enc.entries.take (idx - staticTableSize).toNat) ≤ told

instance (told : Int) (enc : DynamicTable) (idx : Int) : Decidable (Held told enc idx) :=
  inferInstanceAs (Decidable (_ ≤ _))

/-- An index that leads somewhere in the encoder's table: the peer finds the same
    there, or nothing. -/
theorem Shared.lookupEntry (h : Shared told enc peer) (ht : 0 ≤ told) {idx : Int} {e : Header}
    (hl : lookupEntry enc idx = some e) :
    lookupEntry peer idx = if Held told enc idx then some e else none := by
  obtain ⟨hist, henc, hpeer⟩ := h.history
  rw [lookupEntry_eq] at hl ⊢
  by_cases hs : 1 ≤ idx ∧ idx ≤ staticTableSize
  · have hzero : (idx - staticTableSize).toNat = 0 := by omega
    rw [if_pos hs] at hl ⊢
    rw [hl, if_pos]
    rw [Held, hzero, List.take_zero, totalSize_nil]
    exact ht
  · rw [if_neg hs] at hl ⊢
    by_cases hd : staticTableSize < idx
    · rw [if_pos hd] at hl ⊢
      have hlt := (List.getElem?_eq_some_iff.1 hl).1
      have hi : (idx - staticTableSize - 1).toNat + 1 = (idx - staticTableSize).toNat := by omega
      have htake : enc.entries.take (idx - staticTableSize).toNat =
          hist.take (idx - staticTableSize).toNat := by
        obtain ⟨more, rfl⟩ := henc
        rw [List.take_append_of_le_length (by omega)]
      have hget : hist[(idx - staticTableSize - 1).toNat]? = some e := by
        obtain ⟨more, rfl⟩ := henc
        rw [List.getElem?_append_left hlt, hl]
      have hheld : totalSize (hist.take (idx - staticTableSize).toNat) ≤ told ↔ Held told enc idx := by
        rw [Held, htake]
      rw [hpeer, fitting_getElem?, hi, hget]
      exact if_congr hheld rfl rfl
    · rw [if_neg hd] at hl
      cases hl

/-- Every index that the encoder finds for a header is one the peer holds. -/
def HeaderHeld (told : Int) (enc : DynamicTable) (hdr : Header) : Prop :=
  ∀ r ∈ lookupNameValue enc hdr, Held told enc r.1

instance (told : Int) (enc : DynamicTable) (hdr : Header) : Decidable (HeaderHeld told enc hdr) :=
  inferInstanceAs (Decidable (∀ r ∈ lookupNameValue enc hdr, Held told enc r.1))

theorem Found.lookup {hdr : Header} : ∀ {r : Int × Bool}, Found enc hdr r →
    ∃ e, lookupEntry enc r.1 = some e
  | (_, true), h => ⟨_, h.2⟩
  | (_, false), h => ⟨_, h.2.choose_spec⟩

/-- **A header whose entry the peer holds is read back.** -/
theorem decodeHeader_held (h : Shared told enc peer) (ht : 0 ≤ told) (hr : InRange told)
    (strategy : EncodeStrategy) {hdr : Header} (hheld : HeaderHeld told enc hdr)
    (hc : Cursor bs off ((encodeHeader strategy enc hdr).1 ++ rest)) :
    decodeHeader peer bs off =
      (.right (some hdr, off + (encodeHeader strategy enc hdr).1.length),
        tableAfter strategy enc hdr peer) := by
  refine decodeHeader_known strategy h.peer_bounded (h.peer_max ▸ hr) hdr ?_ hc
  intro r hl
  obtain ⟨e, he⟩ := (lookupNameValue_found hl).lookup
  rw [h.lookupEntry ht he, if_pos (hheld r hl), he]

/-- **A header whose entry the peer has lost is an error.** -/
theorem decodeHeader_lost (h : Shared told enc peer) (ht : 0 ≤ told)
    (strategy : EncodeStrategy) {hdr : Header} (hlost : ¬ HeaderHeld told enc hdr)
    (hc : Cursor bs off ((encodeHeader strategy enc hdr).1 ++ rest)) :
    ∃ e, decodeHeader peer bs off = (.left e, peer) := by
  unfold HeaderHeld at hlost
  push Not at hlost
  obtain ⟨⟨idx, full⟩, hl, hheld⟩ := hlost
  have hfound := lookupNameValue_found hl
  obtain ⟨e, he⟩ := hfound.lookup
  have hnone := h.lookupEntry ht he
  rw [if_neg hheld] at hnone
  have h1 : 1 ≤ idx := by
    cases full with
    | true => exact hfound.1
    | false => exact hfound.1
  have hlt := idx_range h.enc_bounded h.enc_range he
  have hword : (UInt64.ofInt idx).toNat < 2 ^ 63 := by
    rw [toNat_ofInt (by omega) hlt]
    omega
  have hne : UInt64.ofInt idx ≠ 0 := by
    intro h0
    have hnat := @toNat_ofInt idx (by omega) hlt
    rw [h0] at hnat
    have hz : (0 : UInt64).toNat = 0 := rfl
    omega
  -- a literal header asks for the name of the same entry
  have hlit : ∀ {n : Nat} {pre : UInt8}, n < 8 → 0 < n → pre &&& byteMask n = 0 →
      ∀ {huff : Bool}, Cursor bs off (encodeLiteral n pre (some idx) hdr.1 hdr.2 huff ++ rest) →
        decodeLiteral peer bs off n = .left (.indexOutOfRange idx) := by
    intro n pre hn h0 hpre huff hcl
    rw [encodeLiteral_eq hn h0, List.append_assoc] at hcl
    rw [decodeLiteral, decodeInteger_encode hn hpre hword hcl, Res.bind_right]
    simp only [decodeName]
    rw [if_neg hne, ofWord_ofInt (by omega) hlt, hnone, Res.bind_left]
  rcases encodeHeader_repr strategy enc hdr with ⟨idx', hl', heq⟩ | ⟨midx, hl', ⟨-, heq⟩ | ⟨-, heq⟩⟩
  · rw [hl] at hl'
    cases hl'
    rw [heq] at hc
    have hs : Starts .indexed (encodeIndexed idx) := ⟨UInt64.ofInt idx, [], by rw [List.append_nil]; rfl⟩
    refine ⟨.indexOutOfRange idx, ?_⟩
    rw [decodeHeader_of_starts hs hc]
    simp only [Kind.decode, decodeIndexed]
    rw [decodeInteger_encode (by decide) (by decide) hword hc, Res.bind_right]
    simp only
    rw [ofWord_ofInt (by omega) hlt, hnone]
  · rw [hl] at hl'
    cases midx with
    | none => cases hl'
    | some idx' =>
      cases hl'
      rw [heq] at hc
      have hs : Starts .incremental
          (encodeLiteralIncremental (some idx) hdr.1 hdr.2 strategy.useHuffman) :=
        ⟨_, _, encodeLiteral_eq (by decide) (by decide) ..⟩
      refine ⟨.indexOutOfRange idx, ?_⟩
      rw [decodeHeader_of_starts hs hc]
      simp only [Kind.decode, decodeLiteralIncremental]
      rw [hlit (by decide) (by decide) (by decide) hc]
  · rw [hl] at hl'
    cases midx with
    | none => cases hl'
    | some idx' =>
      cases hl'
      rw [heq] at hc
      have hs : Starts .noIndex (encodeLiteralNoIndex (some idx) hdr.1 hdr.2 strategy.useHuffman) :=
        ⟨_, _, encodeLiteral_eq (by decide) (by decide) ..⟩
      refine ⟨.indexOutOfRange idx, ?_⟩
      rw [decodeHeader_of_starts hs hc]
      simp only [Kind.decode, decodeLiteralNoIndex, decodeLiteralCommon]
      rw [hlit (by decide) (by decide) (by decide) hc, Res.bind_left]

/-! ## Blocks -/

/-- Every entry that the encoder finds, header after header, is one the peer
    holds. -/
def BlockHeld (told : Int) (strategy : EncodeStrategy) : DynamicTable → List Header → Prop
  | _, [] => True
  | enc, hdr :: headers =>
    HeaderHeld told enc hdr ∧ BlockHeld told strategy (encodeHeader strategy enc hdr).2 headers

/-- The loop of the decoder on a block of the encoder: it reads the headers, up to
    the first whose entry the peer has lost. -/
theorem decodeHeaderBlock_go_shared (strategy : EncodeStrategy) (ht : 0 ≤ told) (hr : InRange told)
    (maxTableSize : Int) (headers : List Header) :
    ∀ {enc peer : DynamicTable} {off : Int} {n : Nat} {acc : List Header} {allow : Bool},
      Shared told enc peer → Cursor bs off (encodeHeaderBlock strategy enc headers).1 →
      (encodeHeaderBlock strategy enc headers).1.length < n →
      (BlockHeld told strategy enc headers → ∃ peer',
        Shared told (encodeHeaderBlock strategy enc headers).2 peer' ∧
        decodeHeaderBlock.go maxTableSize bs n peer off acc allow =
          (.right (acc.reverse ++ headers), peer')) ∧
      (¬ BlockHeld told strategy enc headers →
        ∃ e, (decodeHeaderBlock.go maxTableSize bs n peer off acc allow).1 = .left e) := by
  induction headers with
  | nil =>
    intro enc peer off n acc allow hsh hc hn
    obtain ⟨m, rfl⟩ : ∃ m, n = m + 1 := ⟨n - 1, by omega⟩
    have hend := hc.length_eq
    simp only [encodeHeaderBlock, List.length_nil] at hend
    refine ⟨fun _ => ⟨peer, hsh, ?_⟩, fun hnot => absurd trivial hnot⟩
    rw [decodeHeaderBlock.go, if_pos (by rw [bsLen]; omega), List.append_nil]
  | cons hdr headers ih =>
    intro enc peer off n acc allow hsh hc hn
    obtain ⟨m, rfl⟩ : ∃ m, n = m + 1 := ⟨n - 1, by omega⟩
    obtain ⟨kind, hs⟩ := encodeHeader_starts strategy enc hdr
    have hskip : Cursor bs (off + (encodeHeader strategy enc hdr).1.length)
        (encodeHeaderBlock strategy (encodeHeader strategy enc hdr).2 headers).1 := hc.skip
    obtain ⟨b, t, hbt, -, hupd⟩ := hs.first
    have hlen := congrArg List.length hbt
    have hcur := hc
    simp only [encodeHeaderBlock] at hcur hn
    rw [hbt] at hcur
    rw [List.length_append, hlen, List.length_cons] at hn
    -- the loop does one header, and goes on behind it
    rw [decodeHeaderBlock.go, if_neg (not_ge_bsLen hcur), if_pos hcur.nonneg, hcur.get]
    simp only
    rw [if_neg hupd]
    by_cases hheld : HeaderHeld told enc hdr
    · rw [decodeHeader_held hsh ht hr strategy hheld hc]
      simp only
      obtain ⟨hok, hfail⟩ := @ih _ _ (off + (encodeHeader strategy enc hdr).1.length) m
        (hdr :: acc) false (hsh.tableAfter strategy hdr) hskip (by omega)
      constructor
      · rintro ⟨-, hrest⟩
        obtain ⟨peer', hsh', hgo⟩ := hok hrest
        refine ⟨peer', hsh', ?_⟩
        rw [hgo, List.reverse_cons, List.append_assoc]
        rfl
      · intro hnot
        exact hfail fun hrest => hnot ⟨hheld, hrest⟩
    · obtain ⟨e, he⟩ := decodeHeader_lost hsh ht strategy hheld hc
      rw [he]
      exact ⟨fun hb => absurd hb.1 hheld, fun _ => ⟨e, rfl⟩⟩

variable (strategy : EncodeStrategy) {cap : Int} {headers : List Header}

/-- **A block whose entries the peer holds is read back.** -/
theorem decodeHeaderBlock_held {m : Int} (h : Shared told enc peer) (ht : 0 ≤ told) (hr : InRange told)
    (hsmall : ((encodeHeaderBlock strategy enc headers).1.length : Int) < 2 ^ 63)
    (hheld : BlockHeld told strategy enc headers) :
    ∃ peer', Shared told (encodeHeaderBlock strategy enc headers).2 peer' ∧
      decodeHeaderBlockWithMaxSize peer m (encodeHeaderBlock strategy enc headers).1 =
        (.right headers, peer') :=
  (decodeHeaderBlock_go_shared strategy ht hr m headers h (Cursor.start hsmall)
    (Nat.lt_succ_self _)).1 hheld

/-- **A block with an entry that the peer has lost is an error.** -/
theorem decodeHeaderBlock_lost {m : Int} (h : Shared told enc peer) (ht : 0 ≤ told) (hr : InRange told)
    (hsmall : ((encodeHeaderBlock strategy enc headers).1.length : Int) < 2 ^ 63)
    (hlost : ¬ BlockHeld told strategy enc headers) :
    ∃ e, (decodeHeaderBlockWithMaxSize peer m (encodeHeaderBlock strategy enc headers).1).1 = .left e :=
  (decodeHeaderBlock_go_shared strategy ht hr m headers h (Cursor.start hsmall)
    (Nat.lt_succ_self _)).2 hlost

end Wireform.Http2.Hpack

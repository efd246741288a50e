/-
  The HPACK Huffman coder decodes what it encodes, and nothing else.

  * `huffmanEncode_bits`: the encoder writes the code words, and up to seven
    ones to fill the last byte;
  * `huffmanDecode_go_eq`: the decoder runs the automaton on the halves of the
    bytes, with room for every symbol;
  * `huffmanDecode_huffmanEncode`: the round trip;
  * `readNibble_bits`, `huffmanDecode_go_bits`: the bits that were read are those of the
    symbols, and of the label of the last state;
  * `huffmanDecode_ok_iff`: the round trip, both ways.
-/
import Wireform.Http2.Hpack.HuffmanCode

namespace Wireform.Http2.Hpack

open PrefixCode

/-! ## Bytes as bits -/

/-- The bits of a byte string. -/
def bytesBits (bs : ByteString) : List Bool := bs.flatMap fun b => bitsOf 8 b.toNat

@[simp] theorem bytesBits_nil : bytesBits [] = [] := rfl

@[simp] theorem bytesBits_cons (b : UInt8) (bs : ByteString) :
    bytesBits (b :: bs) = bitsOf 8 b.toNat ++ bytesBits bs := by simp [bytesBits]

@[simp] theorem bytesBits_append (bs bs' : ByteString) :
    bytesBits (bs ++ bs') = bytesBits bs ++ bytesBits bs' := by simp [bytesBits]

theorem bitsOf_ofNat (n : Nat) : bitsOf 8 (UInt8.ofNat n).toNat = bitsOf 8 n := by
  rw [UInt8.toNat_ofNat', show (2 : Nat) ^ 8 = 2 ^ 8 from rfl, bitsOf_mod]

/-! ## Encoding -/

/-- Writing whole bytes keeps the bits. -/
theorem writeBytes_bits (bits : Nat) : ∀ nbits : Nat,
    bytesBits (writeBytes bits nbits).1 ++ bitsOf (writeBytes bits nbits).2 bits = bitsOf nbits bits ∧
      (writeBytes bits nbits).2 < 8
  | nbits => by
    rw [writeBytes]
    split
    · rename_i hn
      obtain ⟨ih, hlt⟩ := writeBytes_bits bits (nbits - 8)
      refine ⟨?_, hlt⟩
      rw [bytesBits_cons, List.append_assoc, ih, bitsOf_ofNat, ← bitsOf_add]
      congr 1
      omega
    · exact ⟨by simp, by omega⟩
termination_by nbits => nbits

/-- A number below a code word. -/
theorem shiftLeft_or (bits k c : Nat) (h : c < 2 ^ k) : (bits <<< k) ||| c = bits * 2 ^ k + c := by
  rw [← Nat.shiftLeft_add_eq_or_of_lt h, Nat.shiftLeft_eq]

theorem huffSym_small (b : UInt8) : (huffSym b).code < 2 ^ (huffSym b).bits :=
  code_small (List.mem_of_getElem? (huffSym_get b))

set_option maxRecDepth 2000 in
theorem huffEncodeTable_short : (huffEncodeTable.all fun c => Nat.ble c.bits 30) = true := rfl

theorem huffSym_short (b : UInt8) : (huffSym b).bits ≤ 30 :=
  Nat.le_of_ble_eq_true
    (List.all_eq_true.1 huffEncodeTable_short _ (List.mem_of_getElem? (huffSym_get b)))

/-- Fill the last byte with ones. -/
theorem padding_bits {bits nbits : Nat} (h0 : 0 < nbits) (h8 : nbits < 8) :
    bitsOf 8 (UInt8.ofNat ((bits <<< (8 - nbits)) ||| ((1 <<< (8 - nbits)) - 1))).toNat =
      bitsOf nbits bits ++ List.replicate (8 - nbits) true := by
  have hpos := Nat.two_pow_pos (8 - nbits)
  rw [bitsOf_ofNat, Nat.one_shiftLeft, shiftLeft_or _ _ _ (by omega), ← bitsOf_ones,
    bitsOf_append _ _ (by omega)]
  congr 1
  omega

/-- The loop writes the buffered bits, the code words and the padding. -/
theorem huffmanEncode_go_bits : ∀ (src : ByteString) (bits nbits : Nat), bits < 2 ^ nbits → nbits < 8 →
    ∃ k < 8, bytesBits (huffmanEncode.go src bits nbits) =
      bitsOf nbits bits ++ encode huffmanCode src ++ List.replicate k true
  | [], bits, nbits, hb, hn => by
    unfold huffmanEncode.go
    split
    · rename_i h0
      exact ⟨8 - nbits, by omega, by rw [bytesBits_cons, padding_bits h0 hn]; simp⟩
    · obtain rfl : nbits = 0 := by omega
      exact ⟨0, by omega, by simp [bitsOf]⟩
  | b :: src, bits, nbits, hb, hn => by
    have hc := huffSym_small b
    have hs := huffSym_short b
    -- the buffer holds at most 37 bits, so the shift drops none
    have hmod : ((bits <<< (huffSym b).bits) ||| (huffSym b).code) % 2 ^ 64 =
        bits * 2 ^ (huffSym b).bits + (huffSym b).code := by
      rw [shiftLeft_or _ _ _ hc, Nat.mod_eq_of_lt]
      calc bits * 2 ^ (huffSym b).bits + (huffSym b).code
          < (bits + 1) * 2 ^ (huffSym b).bits := by rw [Nat.add_mul]; omega
        _ ≤ 2 ^ nbits * 2 ^ (huffSym b).bits := Nat.mul_le_mul_right _ hb
        _ = 2 ^ (nbits + (huffSym b).bits) := (Nat.pow_add ..).symm
        _ ≤ 2 ^ 64 := Nat.pow_le_pow_right (by omega) (by omega)
    unfold huffmanEncode.go
    simp only [hmod]
    obtain ⟨hbits, hlt⟩ := writeBytes_bits (bits * 2 ^ (huffSym b).bits + (huffSym b).code)
      (nbits + (huffSym b).bits)
    generalize writeBytes (bits * 2 ^ (huffSym b).bits + (huffSym b).code)
      (nbits + (huffSym b).bits) = r at hbits hlt
    rw [Nat.one_shiftLeft, Nat.and_two_pow_sub_one_eq_mod]
    obtain ⟨k, hk, ih⟩ := huffmanEncode_go_bits src
      ((bits * 2 ^ (huffSym b).bits + (huffSym b).code) % 2 ^ r.2) r.2
      (Nat.mod_lt _ (Nat.two_pow_pos _)) hlt
    refine ⟨k, hk, ?_⟩
    rw [bytesBits_append, ih, bitsOf_mod, ← List.append_assoc, ← List.append_assoc, hbits,
      ← bitsOf_append _ _ hc, encode_cons]
    simp [huffmanCode]

/-- **The encoder writes the code words, and up to seven ones.** -/
theorem huffmanEncode_bits (bs : ByteString) : ∃ k < 8, bytesBits (huffmanEncode bs) =
    encode huffmanCode bs ++ List.replicate k true := by
  unfold huffmanEncode
  split
  · rename_i h
    exact ⟨0, by omega, by simp [h]⟩
  · obtain ⟨k, hk, h⟩ := huffmanEncode_go_bits bs 0 0 (by simp) (by omega)
    exact ⟨k, hk, by rw [h]; simp [bitsOf]⟩

theorem length_bytesBits (bs : ByteString) : (bytesBits bs).length = 8 * bs.length := by
  induction bs with
  | nil => rfl
  | cons b bs ih => rw [bytesBits_cons, List.length_append, length_bitsOf, ih, List.length_cons, Nat.mul_succ, Nat.add_comm]

theorem length_encode_huffmanCode (bs : ByteString) : (encode huffmanCode bs).length ≤ 30 * bs.length := by
  induction bs with
  | nil => exact Nat.le_refl 0
  | cons b bs ih =>
    have hb : (huffmanCode b).length ≤ 30 := by rw [huffmanCode, length_bitsOf]; exact huffSym_short b
    rw [encode_cons, List.length_append, List.length_cons]
    omega

theorem length_huffmanEncode (bs : ByteString) : (huffmanEncode bs).length ≤ 4 * bs.length := by
  obtain ⟨k, hk, h⟩ := huffmanEncode_bits bs
  have hlen := congrArg List.length h
  have hcode := length_encode_huffmanCode bs
  rw [length_bytesBits, List.length_append, List.length_replicate] at hlen
  omega

/-! ## Decoding -/

theorem byte_high_lt (b : UInt8) : b.toNat >>> 4 < 16 := by
  have := b.toNat_lt
  rw [Nat.shiftRight_eq_div_pow]; omega

theorem byte_low_lt (b : UInt8) : b.toNat &&& 0x0F < 16 := by
  have h : b.toNat &&& (2 ^ 4 - 1) = b.toNat % 2 ^ 4 := Nat.and_two_pow_sub_one_eq_mod _ 4
  exact (h.le.trans_lt (Nat.mod_lt _ (by omega)))

/-- The two halves of every byte. -/
def nibbles (bs : ByteString) : List (Fin 16) :=
  bs.flatMap fun b => [⟨b.toNat >>> 4, byte_high_lt b⟩, ⟨b.toNat &&& 0x0F, byte_low_lt b⟩]

theorem nibbles_bits (bs : ByteString) : (nibbles bs).flatMap huffmanAutomaton.letter = bytesBits bs := by
  induction bs with
  | nil => rfl
  | cons b bs ih =>
    have hlow : bitsOf 4 (b.toNat &&& 0x0F) = bitsOf 4 b.toNat := by
      have h : b.toNat &&& (2 ^ 4 - 1) = b.toNat % 2 ^ 4 := Nat.and_two_pow_sub_one_eq_mod _ 4
      change bitsOf 4 (b.toNat &&& (2 ^ 4 - 1)) = _
      rw [h, bitsOf_mod]
    rw [nibbles, List.flatMap_cons, List.flatMap_append, bytesBits_cons, ← ih,
      show (8 : Nat) = 4 + 4 from rfl, bitsOf_add]
    simp only [List.flatMap_cons, List.flatMap_nil, List.append_nil, huffmanAutomaton, hlow]
    rfl

/-- The decoder may stop with these flags exactly when the rest is padding. -/
def FlagsOk (state flags : Nat) : Prop :=
  flags % 2 = 1 ↔ isPadding (stateLabel state).1 (stateLabel state).2.1 = true

/-- Reading four bits is a step of the automaton, while there is room. -/
theorem readNibble_eq (cap : Nat) {s : Nat} (hs : s < 256) (i : Fin 16) (dst : ByteString)
    (hroom : dst.length < cap) {s' : Nat} {o : Option UInt8}
    (h : huffmanAutomaton.step s i = some (s', o)) :
    ∃ flags, readNibble cap s i.val dst = some (s', flags, dst ++ o.toList) ∧ FlagsOk s' flags ∧
      s' < 256 := by
  have hv := huffmanAutomaton_lawful.step_valid s i s' o hs h
  simp only [huffmanAutomaton] at h
  split at h
  · cases h
  · rename_i hf
    obtain ⟨-, hacc, -⟩ := huffEntry_next hs i hf
    cases h
    refine ⟨(huffEntry s i.val).flags, ?_, hacc, hv⟩
    unfold readNibble
    rw [if_neg fun hc => absurd hc.2 (not_le.2 hroom), if_neg hf]
    split <;> simp

/-- **The decoder runs the automaton on the halves of the bytes.** -/
theorem huffmanDecode_go_eq (cap : Nat) : ∀ (src : ByteString) (s flags : Nat) (dst : ByteString),
    s < 256 → FlagsOk s flags → dst.length + 2 * src.length ≤ cap → ∀ s' out,
    huffmanAutomaton.run s (nibbles src) = some (s', out) →
    isPadding (stateLabel s').1 (stateLabel s').2.1 = true →
    huffmanDecode.go cap src s flags dst = some (dst ++ out)
  | [], s, flags, dst, hs, hf, hroom, s', out, hrun, hpad => by
    cases hrun
    have h1 := hf.2 hpad
    unfold huffmanDecode.go
    rw [Nat.and_one_is_mod, if_pos (by omega)]
    simp
  | b :: src, s, flags, dst, hs, hf, hroom, s', out, hrun, hpad => by
    rw [List.length_cons] at hroom
    simp only [nibbles, List.flatMap_cons, List.cons_append, List.nil_append, Automaton.run] at hrun
    unfold huffmanDecode.go
    cases h1 : huffmanAutomaton.step s ⟨b.toNat >>> 4, byte_high_lt b⟩ with
    | none => simp [h1] at hrun
    | some r1 =>
      obtain ⟨s1, o1⟩ := r1
      simp only [h1] at hrun
      obtain ⟨f1, e1, -, hs1⟩ := readNibble_eq cap hs _ dst (by omega) h1
      cases h2 : huffmanAutomaton.step s1 ⟨b.toNat &&& 0x0F, byte_low_lt b⟩ with
      | none => simp [h2] at hrun
      | some r2 =>
        obtain ⟨s2, o2⟩ := r2
        simp only [h2] at hrun
        have hlen1 : o1.toList.length ≤ 1 := by cases o1 <;> simp
        have hlen2 : o2.toList.length ≤ 1 := by cases o2 <;> simp
        obtain ⟨f2, e2, hf2, hs2⟩ := readNibble_eq cap hs1 _ (dst ++ o1.toList)
          (by rw [List.length_append]; omega) h2
        cases hr : huffmanAutomaton.run s2 (nibbles src) with
        | none => rw [nibbles] at hr; simp [hr] at hrun
        | some r =>
          obtain ⟨s3, out3⟩ := r
          have hr' := hr
          rw [nibbles] at hr'
          simp only [hr', Option.map_some, Option.some.injEq, Prod.mk.injEq] at hrun
          obtain ⟨rfl, rfl⟩ := hrun
          have ih := huffmanDecode_go_eq cap src s2 f2 (dst ++ o1.toList ++ o2.toList) hs2 hf2
            (by simp only [List.length_append]; omega) s3 out3 hr hpad
          have e1' : readNibble cap s (b.toNat >>> 4) dst = some (s1, f1, dst ++ o1.toList) := e1
          have e2' : readNibble cap s1 (b.toNat &&& 0x0F) (dst ++ o1.toList) =
            some (s2, f2, dst ++ o1.toList ++ o2.toList) := e2
          simp only [e1', e2', ih]
          simp

/-- Only up to seven ones are padding. -/
theorem isPadding_of_bits {s k : Nat} (hs : s < 256) (hk : k < 8)
    (h : labelBits s = List.replicate k true) :
    isPadding (stateLabel s).1 (stateLabel s).2.1 = true := by
  have hlen := congrArg List.length h
  rw [labelBits, length_bitsOf, List.length_replicate] at hlen
  have hpos := Nat.two_pow_pos k
  rw [labelBits, hlen, ← bitsOf_ones] at h
  have hval := bitsOf_inj (hlen ▸ label_small hs) (by omega) h
  rw [isPadding, hlen, hval, Bool.and_eq_true, Nat.ble_eq, Nat.beq_eq]
  omega

/-- Padding holds no code word. -/
theorem padding_open {k : Nat} (hk : k < 8) (a : UInt8) :
    ¬ huffmanCode a <+: List.replicate k true := by
  intro h
  refine (eos_apart a).1 (h.trans ?_)
  have he : eos = List.replicate k true ++ List.replicate (30 - k) true := by
    rw [← List.replicate_add, show k + (30 - k) = 30 by omega]
    exact bitsOf_ones 30
  rw [he]
  exact List.prefix_append _ _

/-- **The Huffman coder decodes what it encodes.** -/
theorem huffmanDecode_huffmanEncode (bs : ByteString) : huffmanDecode (huffmanEncode bs) = .ok bs := by
  obtain ⟨k, hk, hbits⟩ := huffmanEncode_bits bs
  unfold huffmanDecode
  split
  · rename_i hnil
    rw [hnil, bytesBits_nil] at hbits
    cases bs with
    | nil => rfl
    | cons b bs =>
      rw [encode_cons, List.append_assoc] at hbits
      -- a code word is longer than the label of the first state
      have h0 : huffmanCode b = [] := List.append_eq_nil_iff.1 hbits.symm |>.1
      refine absurd ?_ (huffmanAutomaton_lawful.label_open 0 b (by omega))
      change huffmanCode b <+: _
      rw [h0]
      exact List.nil_prefix
  · have hstart : huffmanAutomaton.label 0 ++ (nibbles (huffmanEncode bs)).flatMap
        huffmanAutomaton.letter = encode huffmanCode bs ++ List.replicate k true := by
      rw [nibbles_bits, hbits]
      rfl
    obtain ⟨s', hs', hrun, hl⟩ := huffmanAutomaton_lawful.run_encode (padding_open hk)
      (by simp [eos]; omega) _ 0 bs (by omega) hstart
    have hgo := huffmanDecode_go_eq ((huffmanEncode bs).length * 2 + 256) (huffmanEncode bs) 0 1
      [] (by omega) (by unfold FlagsOk; decide) (by simp; omega) s' bs hrun
      (isPadding_of_bits hs' hk hl)
    rw [hgo]
    rfl

/-! ## What is decoded was encoded -/

theorem readNibble_bits {cap s : Nat} (hs : s < 256) (i : Fin 16) {dst dst' : ByteString} {s' flags : Nat}
    (h : readNibble cap s i.val dst = some (s', flags, dst')) :
    s' < 256 ∧ FlagsOk s' flags ∧
      ∃ o, dst' = dst ++ o ∧ encode huffmanCode o ++ labelBits s' = labelBits s ++ bitsOf 4 i.val := by
  unfold readNibble at h
  dsimp only at h
  split_ifs at h with hfull hfail
  all_goals
    cases h
    obtain ⟨hlt, hflags, hnext⟩ := huffEntry_next hs i hfail
    refine ⟨hlt, hflags, ?_⟩
    rcases hnext with ⟨hsym, heq⟩ | ⟨hsym, heq⟩
  · exact ⟨[_], rfl, by simpa [encode] using heq⟩
  · contradiction
  · contradiction
  · exact ⟨[], (List.append_nil _).symm, heq⟩

theorem huffmanDecode_go_bits {cap : Nat} : ∀ {src : ByteString} {s flags : Nat} {dst dst' : ByteString},
    s < 256 → FlagsOk s flags → huffmanDecode.go cap src s flags dst = some dst' →
    ∃ o, dst' = dst ++ o ∧ ∃ k < 8, encode huffmanCode o ++ List.replicate k true = labelBits s ++ bytesBits src
  | [], s, flags, dst, dst', hs, hf, h => by
    unfold huffmanDecode.go at h
    split_ifs at h with hflag
    cases h
    have hpad := hf.1 (by rw [Nat.and_one_is_mod] at hflag; omega)
    rw [isPadding, Bool.and_eq_true, Nat.ble_eq, Nat.beq_eq] at hpad
    have hpos := Nat.two_pow_pos (stateLabel s).1
    refine ⟨[], (List.append_nil _).symm, (stateLabel s).1, by omega, ?_⟩
    rw [labelBits, (by omega : (stateLabel s).2.1 = 2 ^ (stateLabel s).1 - 1), bitsOf_ones]
    simp [encode]
  | b :: src, s, flags, dst, dst', hs, hf, h => by
    unfold huffmanDecode.go at h
    cases h1 : readNibble cap s (b.toNat >>> 4) dst with
    | none => simp [h1] at h
    | some r1 =>
      obtain ⟨s1, f1, dst1⟩ := r1
      obtain ⟨hs1, -, o1, rfl, heq1⟩ := readNibble_bits hs ⟨_, byte_high_lt b⟩ h1
      simp only [h1] at h
      cases h2 : readNibble cap s1 (b.toNat &&& 0x0F) (dst ++ o1) with
      | none => simp [h2] at h
      | some r2 =>
        obtain ⟨s2, f2, dst2⟩ := r2
        obtain ⟨hs2, hf2, o2, rfl, heq2⟩ := readNibble_bits hs1 ⟨_, byte_low_lt b⟩ h2
        simp only [h2] at h
        obtain ⟨o, rfl, k, hk, heq⟩ := huffmanDecode_go_bits hs2 hf2 h
        refine ⟨o1 ++ (o2 ++ o), by simp only [List.append_assoc], k, hk, ?_⟩
        calc encode huffmanCode (o1 ++ (o2 ++ o)) ++ List.replicate k true
          _ = encode huffmanCode o1 ++ (encode huffmanCode o2 ++ (encode huffmanCode o ++ List.replicate k true)) := by
            simp only [encode, List.flatMap_append, List.append_assoc]
          _ = encode huffmanCode o1 ++ (labelBits s1 ++ bitsOf 4 (b.toNat &&& 0x0F) ++ bytesBits src) := by
            rw [heq, ← List.append_assoc (encode huffmanCode o2), heq2]
          _ = labelBits s ++ bitsOf 4 (b.toNat >>> 4) ++ bitsOf 4 (b.toNat &&& 0x0F) ++ bytesBits src := by
            rw [← heq1]
            simp only [List.append_assoc]
          _ = labelBits s ++ bytesBits (b :: src) := by
            have hnib : bitsOf 4 (b.toNat >>> 4) ++ bitsOf 4 (b.toNat &&& 0x0F) = bitsOf 8 b.toNat := by
              simpa [nibbles, huffmanAutomaton] using nibbles_bits [b]
            rw [List.append_assoc (labelBits s), hnib, List.append_assoc, ← bytesBits_cons]

theorem bytesBits_inj : ∀ {as bs : ByteString}, bytesBits as = bytesBits bs → as = bs
  | [], [], _ => rfl
  | [], b :: bs, h => by simpa [length_bytesBits] using congrArg List.length h.symm
  | a :: as, [], h => by simpa [length_bytesBits] using congrArg List.length h
  | a :: as, b :: bs, h => by
    rw [bytesBits_cons, bytesBits_cons] at h
    obtain ⟨hhead, htail⟩ := List.append_inj h (by rw [length_bitsOf, length_bitsOf])
    rw [bytesBits_inj htail, UInt8.toNat_inj.1 (bitsOf_inj a.toNat_lt b.toNat_lt hhead)]

/-- **The decoder accepts what the encoder writes, and nothing else.** -/
theorem huffmanDecode_ok_iff (bs xs : ByteString) : huffmanDecode bs = .ok xs ↔ bs = huffmanEncode xs := by
  constructor
  · intro h
    obtain ⟨k', hk', henc⟩ := huffmanEncode_bits xs
    have hdec : ∃ k < 8, bytesBits bs = encode huffmanCode xs ++ List.replicate k true := by
      unfold huffmanDecode at h
      split_ifs at h with hnil
      · cases h
        exact ⟨0, by omega, by rw [hnil]; rfl⟩
      · split at h
        · rename_i dst hgo
          cases h
          obtain ⟨o, rfl, k, hk, heq⟩ := huffmanDecode_go_bits (by omega) (by unfold FlagsOk; decide) hgo
          exact ⟨k, hk, heq.symm⟩
        · cases h
    obtain ⟨k, hk, hbits⟩ := hdec
    -- both paddings fill the same number of bytes
    have hlen := congrArg List.length henc
    have hlen' := congrArg List.length hbits
    rw [length_bytesBits, List.length_append, List.length_replicate] at hlen hlen'
    obtain rfl : k = k' := by omega
    exact bytesBits_inj (hbits.trans henc.symm)
  · rintro rfl
    exact huffmanDecode_huffmanEncode xs

end Wireform.Http2.Hpack

/-
  What a peek of the Kafka protocol's primitives makes of what the poke wrote.

  * `Codec`: the compositions of strings, bytes, arrays and tagged fields;
  * `Codec.peek_poke`: where every length fits its prefix, a value is read back,
    with null for a non-nullable array read as the empty array;
  * `Codec.length_poke_le`: the estimators bound what is written.
-/
import Wireform.Kafka.Wire.Primitives

namespace Wireform.Kafka.Wire

/-! ## Integers -/

theorem ok_bind {α β : Type} (a : α) (f : α → Except WireError β) : (Except.ok a >>= f) = f a := rfl

theorem ensureBytes_append {xs : Bytes} {n : Nat} (h : xs.length = n) (rest : Bytes) (what : String) :
    ensureBytes (xs ++ rest) n what = .ok () :=
  if_pos (by rw [List.length_append]; omega)

@[simp] theorem length_pokeIntBE (w : Nat) (i : Int) : (pokeIntBE w i).length = w := by
  rw [pokeIntBE, List.length_reverse, length_leBytes]

theorem peekIntBE_poke (w : Nat) (what : String) (i : Int) (rest : Bytes) :
    peekIntBE w what (pokeIntBE w i ++ rest) = .ok (toSigned w i, rest) := by
  have hlen := length_pokeIntBE w i
  have hpos : (0 : Int) < (256 ^ w : Nat) := Int.natCast_pos.2 (Nat.pow_pos (by decide))
  have hvalue : toSigned w (leValue ((pokeIntBE w i ++ rest).take w).reverse) = toSigned w i := by
    rw [List.take_left' hlen, pokeIntBE, List.reverse_reverse, leValue_leBytes, toSigned, toSigned,
      Nat.mod_eq_of_lt (by have := Int.emod_lt_of_pos i hpos; omega), Int.toNat_of_nonneg (Int.emod_nonneg _ hpos.ne'),
      Int.emod_bmod]
  rw [peekIntBE, ensureBytes_append hlen, hvalue, List.drop_left' hlen]
  rfl

theorem toSigned_toSigned (w : Nat) (i : Int) : toSigned w (toSigned w i) = toSigned w i := Int.bmod_bmod

/-- A length that fits is not changed. -/
theorem toSigned_of_lt {w n : Nat} (h : 2 * n < 256 ^ w) : toSigned w n = n := by
  rw [toSigned, Int.bmod_eq_of_le] <;> omega

theorem pokeUVarInt_eq (v : UInt32) : pokeUVarInt v = leb128 v.toNat := by
  induction v using pokeUVarInt.induct with
  | case1 v h =>
    have hv : v.toNat < 128 := UInt32.lt_iff_toNat_lt.1 h
    rw [pokeUVarInt, if_pos h, leb128_small hv]
    exact congrArg (· :: []) (UInt8.toNat_inj.1 (by rw [UInt32.toNat_toUInt8, UInt8.toNat_ofNat']))
  | case2 v h ih =>
    have hv : 128 ≤ v.toNat := UInt32.le_iff_toNat_le.1 (UInt32.not_lt.1 h)
    have hlow : (v &&& 0x7F).toNat = v.toNat % 128 := by
      rw [UInt32.toNat_and]
      exact Nat.and_two_pow_sub_one_eq_mod v.toNat 7
    have hbyte : ((v &&& 0x7F) ||| 0x80).toUInt8 = UInt8.ofNat (v.toNat % 128 + 128) := by
      refine UInt8.toNat_inj.1 ?_
      rw [UInt32.toNat_toUInt8, UInt32.toNat_or, hlow, UInt8.toNat_ofNat']
      have := Nat.two_pow_add_eq_or_of_lt (i := 7) (b := v.toNat % 128) (Nat.mod_lt _ (by decide)) 1
      rw [show UInt32.toNat 0x80 = 2 ^ 7 * 1 from rfl, Nat.or_comm, ← this, Nat.add_comm]
    have hshift : (v >>> 7).toNat = v.toNat / 128 := by
      rw [UInt32.toNat_shiftRight, Nat.shiftRight_eq_div_pow]
      rfl
    rw [pokeUVarInt, if_neg h, leb128_large hv, hbyte, ih, hshift]

theorem length_pokeUVarInt_le (v : UInt32) : (pokeUVarInt v).length ≤ 5 := by
  rw [pokeUVarInt_eq]
  exact length_leb128_le (Nat.lt_trans v.toNat_lt (by decide))

theorem length_pokeUVarInt_pos (v : UInt32) : 0 < (pokeUVarInt v).length := by
  rw [pokeUVarInt_eq]
  exact length_leb128_pos _

set_option maxRecDepth 4000 in
/-- The bits of a group, and whether more follow. -/
theorem group_byte (n : Nat) : ((UInt8.ofNat n &&& 0x7F).toUInt32.toNat = n % 128) ∧
    (UInt8.ofNat n &&& 0x80 = 0 ↔ n % 256 < 128) := by
  have : ∀ m < 256, ((UInt8.ofNat m &&& 0x7F).toUInt32.toNat = m % 128) ∧ (UInt8.ofNat m &&& 0x80 = 0 ↔ m < 128) := by
    decide
  have h := this (n % 256) (Nat.mod_lt _ (by decide))
  rw [UInt8.ofNat_mod_size, Nat.mod_mod_of_dvd _ (by decide : 128 ∣ 256)] at h
  exact h

theorem peekUVarIntSlow_go_last (rest : Bytes) {k n : Nat} {acc : UInt32} (hk : k ≤ 4) (hsmall : n < 128)
    (hacc : acc.toNat < 2 ^ (7 * k)) (hn : n * 2 ^ (7 * k) < 2 ^ 32) :
    ∃ v : UInt32, v.toNat = acc.toNat + n * 2 ^ (7 * k) ∧
      peekUVarIntSlow.go (leb128 n ++ rest) (7 * k) acc = .ok (v, rest) := by
  obtain ⟨hbits, hmore⟩ := group_byte n
  rw [Nat.mod_eq_of_lt hsmall] at hbits
  refine ⟨acc ||| ((UInt8.ofNat n &&& 0x7F).toUInt32 <<< UInt32.ofNat (7 * k)), ?_, ?_⟩
  · rw [toNat_or_shift32 (by omega) hacc (by rw [hbits]; exact hn), hbits]
  · rw [leb128_small hsmall, List.singleton_append, peekUVarIntSlow.go, if_neg (by omega)]
    exact if_pos (hmore.2 (by omega))

theorem peekUVarIntSlow_go_leb128 (rest : Bytes) (j : Nat) : ∀ {k n : Nat} {acc : UInt32}, j + k = 4 →
    acc.toNat < 2 ^ (7 * k) → n * 2 ^ (7 * k) < 2 ^ 32 →
    ∃ v : UInt32, v.toNat = acc.toNat + n * 2 ^ (7 * k) ∧
      peekUVarIntSlow.go (leb128 n ++ rest) (7 * k) acc = .ok (v, rest) := by
  induction j with
  | zero =>
    intro k n acc hk hacc hn
    obtain rfl : k = 4 := by omega
    exact peekUVarIntSlow_go_last rest le_rfl (by omega) hacc hn
  | succ j ih =>
    intro k n acc hk hacc hn
    by_cases hsmall : n < 128
    · exact peekUVarIntSlow_go_last rest (by omega) hsmall hacc hn
    · obtain ⟨hbits, hmore⟩ := group_byte (n % 128 + 128)
      have hpow : 2 ^ (7 * (k + 1)) = 128 * 2 ^ (7 * k) := by rw [Nat.mul_succ, Nat.pow_add, Nat.mul_comm]
      have hdiv : n % 128 * 2 ^ (7 * k) + n / 128 * 2 ^ (7 * (k + 1)) = n * 2 ^ (7 * k) := by
        rw [hpow, ← Nat.mul_assoc, ← Nat.add_mul, Nat.mul_comm (n / 128), Nat.mod_add_div]
      rw [Nat.add_mod_right, Nat.mod_mod] at hbits
      have hacc' := toNat_or_shift32 (a := acc) (w := (UInt8.ofNat (n % 128 + 128) &&& 0x7F).toUInt32) (k := 7 * k)
        (by omega) hacc (by rw [hbits]; omega)
      rw [hbits] at hacc'
      have hlt : n % 128 * 2 ^ (7 * k) ≤ 127 * 2 ^ (7 * k) := Nat.mul_le_mul_right _ (by omega)
      obtain ⟨v, hv, hgo⟩ := ih (k := k + 1) (n := n / 128) (by omega) (by rw [hacc', hpow]; omega) (by omega)
      refine ⟨v, by rw [hv, hacc']; omega, ?_⟩
      rw [leb128_large (Nat.not_lt.1 hsmall), List.cons_append, peekUVarIntSlow.go, if_neg (by omega), ← hgo]
      exact if_neg (fun h => by have := hmore.1 h; omega)

theorem peekUVarInt_poke (v : UInt32) (rest : Bytes) : peekUVarInt (pokeUVarInt v ++ rest) = .ok (v, rest) := by
  rw [pokeUVarInt_eq]
  by_cases hsmall : v.toNat < 128
  · obtain ⟨-, hmore⟩ := group_byte v.toNat
    rw [leb128_small hsmall, List.singleton_append, peekUVarInt, if_pos (hmore.2 (by omega))]
    refine congrArg (fun v => Except.ok (v, rest)) (UInt32.toNat_inj.1 ?_)
    rw [UInt8.toNat_toUInt32, UInt8.toNat_ofNat', Nat.mod_eq_of_lt (by omega)]
  · obtain ⟨hbits, hmore⟩ := group_byte (v.toNat % 128 + 128)
    rw [Nat.add_mod_right, Nat.mod_mod] at hbits
    have hv := v.toNat_lt
    have hacc : (UInt8.ofNat (v.toNat % 128 + 128) &&& 0x7F).toUInt32.toNat < 2 ^ (7 * 1) := by omega
    obtain ⟨w, hw, hgo⟩ := peekUVarIntSlow_go_leb128 rest 3 (n := v.toNat / 128) rfl hacc (by omega)
    rw [leb128_large (Nat.not_lt.1 hsmall), List.cons_append, peekUVarInt,
      if_neg (fun h => by have := hmore.1 h; omega), peekUVarIntSlow, hgo]
    refine congrArg (fun v => Except.ok (v, rest)) (UInt32.toNat_inj.1 ?_)
    rw [hw, hbits]
    omega

theorem peekByteString_append {xs : Bytes} {n : Nat} (h : xs.length = n) (rest : Bytes) (what : String) :
    peekByteString n what (xs ++ rest) = .ok (xs, rest) := by
  rw [peekByteString, ensureBytes_append h, List.take_left' h, List.drop_left' h]
  rfl

theorem decodeUtf8_encodeUtf8 (t : Text) : decodeUtf8 (encodeUtf8 t) = .ok t := by
  have hbytes : (⟨(encodeUtf8 t).toArray⟩ : ByteArray) = t.toUTF8 := by rw [encodeUtf8, Array.toArray_toList]
  have hvalid : String.fromUTF8? t.toUTF8 = some t := by
    unfold String.fromUTF8?
    exact dif_pos t.isValidUTF8
  rw [decodeUtf8, hbytes, hvalid]

/-! ## Strings and bytes -/

/-- The peek gives back `w` where the poke wrote `v`. -/
def Reads {α : Type} (poke : Poke α) (peek : Peek α) (v w : α) : Prop :=
  ∀ rest, peek (poke v ++ rest) = .ok (w, rest)

/-- The size of a value that is there is below the limit. -/
def Nullable.Below {α : Type} (size : α → Nat) (limit : Nat) : Nullable α → Prop
  | .null => True
  | .notNull a => size a < limit

/-- A length prefix that is not negative is the length. -/
theorem peekIntBE_length {w n : Nat} (h : 2 * n < 256 ^ w) (what : String) (rest : Bytes) :
    peekIntBE w what (pokeIntBE w (toSigned w n) ++ rest) = .ok ((n : Int), rest) := by
  rw [peekIntBE_poke, toSigned_toSigned, toSigned_of_lt h]

theorem kafkaString_reads {v : KafkaString} (h : v.Below sizeOfText (2 ^ 15)) :
    Reads pokeKafkaString peekKafkaString v v := by
  intro rest
  cases v with
  | null =>
    rw [pokeKafkaString, peekKafkaString, pokeInt16BE, peekInt16BE, peekIntBE_poke]
    rfl
  | notNull t =>
    have hlen : 2 * (encodeUtf8 t).length < 256 ^ 2 := by
      have : (encodeUtf8 t).length < 2 ^ 15 := h
      omega
    rw [pokeKafkaString, peekKafkaString, List.append_assoc, pokeInt16BE, peekInt16BE, peekIntBE_length hlen]
    simp only [ok_bind, Int.toNat_natCast, peekByteString_append rfl, decodeUtf8_encodeUtf8]
    exact if_neg (not_lt.2 (Int.natCast_nonneg _))

theorem compact_length {n : Nat} (h : n < 2 ^ 32 - 1) :
    UInt32.ofNat n + 1 ≠ 0 ∧ (UInt32.ofNat n + 1).toNat - 1 = n := by
  have htoNat : (UInt32.ofNat n + 1).toNat = n + 1 := by
    rw [UInt32.toNat_add, UInt32.toNat_ofNat', UInt32.toNat_one]
    omega
  refine ⟨fun h0 => ?_, by omega⟩
  rw [h0] at htoNat
  cases htoNat

theorem ofNat_succ (n : Nat) : UInt32.ofNat (n + 1) = UInt32.ofNat n + 1 := UInt32.ofNat_add n 1

theorem compactString_reads {v : CompactString} (h : v.Below sizeOfText (2 ^ 32 - 1)) :
    Reads pokeCompactString peekCompactString v v := by
  intro rest
  cases v with
  | null =>
    rw [pokeCompactString, peekCompactString, peekUVarInt_poke]
    rfl
  | notNull t =>
    obtain ⟨h0, hlen⟩ := compact_length (n := (encodeUtf8 t).length) h
    rw [pokeCompactString, peekCompactString, List.append_assoc, peekUVarInt_poke]
    simp only [ok_bind, peekByteString_append hlen.symm, decodeUtf8_encodeUtf8]
    exact if_neg h0

theorem kafkaBytes_reads {v : KafkaBytes} (h : v.Below List.length (2 ^ 31)) :
    Reads pokeKafkaBytes peekKafkaBytes v v := by
  intro rest
  cases v with
  | null =>
    rw [pokeKafkaBytes, peekKafkaBytes, pokeInt32BE, peekInt32BE, peekIntBE_poke]
    rfl
  | notNull bs =>
    have hlen : 2 * bs.length < 256 ^ 4 := by
      have : bs.length < 2 ^ 31 := h
      omega
    rw [pokeKafkaBytes, peekKafkaBytes, List.append_assoc, pokeInt32BE, peekInt32BE, peekIntBE_length hlen]
    simp only [ok_bind, Int.toNat_natCast, peekByteString_append rfl]
    exact if_neg (not_lt.2 (Int.natCast_nonneg _))

theorem compactBytes_reads {v : CompactBytes} (h : v.Below List.length (2 ^ 32 - 1)) :
    Reads pokeCompactBytes peekCompactBytes v v := by
  intro rest
  cases v with
  | null =>
    rw [pokeCompactBytes, peekCompactBytes, peekUVarInt_poke]
    rfl
  | notNull bs =>
    obtain ⟨h0, hlen⟩ := compact_length h
    rw [pokeCompactBytes, peekCompactBytes, List.append_assoc, peekUVarInt_poke]
    simp only [ok_bind, peekByteString_append hlen.symm]
    exact if_neg h0

theorem versionedString_reads {version threshold : Int} {v : KafkaString}
    (h : v.Below sizeOfText (if version ≥ threshold then 2 ^ 32 - 1 else 2 ^ 15)) :
    Reads (pokeVersionedString version threshold) (peekVersionedString version threshold) v v := by
  unfold pokeVersionedString peekVersionedString
  split_ifs at h ⊢
  · exact compactString_reads h
  · exact kafkaString_reads h

theorem versionedBytes_reads {version threshold : Int} {v : KafkaBytes}
    (h : v.Below List.length (if version ≥ threshold then 2 ^ 32 - 1 else 2 ^ 31)) :
    Reads (pokeVersionedBytes version threshold) (peekVersionedBytes version threshold) v v := by
  unfold pokeVersionedBytes peekVersionedBytes
  split_ifs at h ⊢
  · exact compactBytes_reads h
  · exact kafkaBytes_reads h

/-! ## Arrays -/

section
variable {α : Type} {pokeElt : Poke α} {peekElt : Peek α}

theorem replicateMVec_loop_reads {vs ws : List α} (h : List.Forall₂ (Reads pokeElt peekElt) vs ws) (rest : Bytes) :
    replicateMVec.loop peekElt vs.length (vs.flatMap pokeElt ++ rest) = .ok (ws, rest) := by
  induction h with
  | nil => rfl
  | cons hv _ ih =>
    rw [List.flatMap_cons, List.append_assoc, List.length_cons, replicateMVec.loop, hv]
    simp only [ok_bind, ih]
    rfl

/-- As many elements as bytes, at least. -/
theorem length_flatMap_ge (hpos : ∀ v, 0 < (pokeElt v).length) (vs : List α) :
    vs.length ≤ (vs.flatMap pokeElt).length := by
  induction vs with
  | nil => exact Nat.le_refl 0
  | cons v vs ih =>
    have := hpos v
    rw [List.flatMap_cons, List.length_append, List.length_cons]
    omega

theorem replicateMVec_reads (hpos : ∀ v, 0 < (pokeElt v).length) {vs ws : List α}
    (h : List.Forall₂ (Reads pokeElt peekElt) vs ws) {n : Nat} (hn : n = vs.length) (rest : Bytes) :
    replicateMVec n peekElt (vs.flatMap pokeElt ++ rest) = .ok (ws, rest) := by
  have := length_flatMap_ge hpos vs
  subst hn
  rw [replicateMVec, if_neg (by rw [List.length_append]; omega), replicateMVec_loop_reads h]

variable (hpos : ∀ v, 0 < (pokeElt v).length)
include hpos

theorem kafkaArray_reads {v : KafkaArray α} {ws : List α} (hlen : v.elements.length < 2 ^ 31)
    (h : List.Forall₂ (Reads pokeElt peekElt) v.elements ws) :
    Reads (pokeKafkaArray pokeElt) (peekKafkaArray peekElt) v (.notNull ws) := by
  intro rest
  rw [pokeKafkaArray, peekKafkaArray, List.append_assoc, pokeInt32BE, peekInt32BE, peekIntBE_length (by omega)]
  simp only [ok_bind, replicateMVec_reads hpos h (Int.toNat_natCast _)]
  exact if_neg (not_lt.2 (Int.natCast_nonneg _))

theorem nullableKafkaArray_reads {vs ws : List α} (hlen : vs.length < 2 ^ 31)
    (h : List.Forall₂ (Reads pokeElt peekElt) vs ws) :
    Reads (pokeNullableKafkaArray pokeElt) (peekNullableKafkaArray peekElt) (.notNull vs) (.notNull ws) := by
  intro rest
  rw [pokeNullableKafkaArray, peekNullableKafkaArray, List.append_assoc, pokeInt32BE, peekInt32BE,
    peekIntBE_length (by omega)]
  simp only [ok_bind, replicateMVec_reads hpos h (Int.toNat_natCast _)]
  exact if_neg (not_lt.2 (Int.natCast_nonneg _))

theorem compactArray_reads {v : KafkaArray α} {ws : List α} (hlen : v.elements.length < 2 ^ 32 - 1)
    (h : List.Forall₂ (Reads pokeElt peekElt) v.elements ws) :
    Reads (pokeCompactArray pokeElt) (peekCompactArray peekElt) v (.notNull ws) := by
  intro rest
  obtain ⟨h0, hn⟩ := compact_length hlen
  rw [← ofNat_succ] at h0 hn
  rw [pokeCompactArray, peekCompactArray, List.append_assoc, peekUVarInt_poke]
  simp only [ok_bind, replicateMVec_reads hpos h hn]
  exact if_neg h0

theorem nullableCompactArray_reads {vs ws : List α} (hlen : vs.length < 2 ^ 32 - 1)
    (h : List.Forall₂ (Reads pokeElt peekElt) vs ws) :
    Reads (pokeNullableCompactArray pokeElt) (peekNullableCompactArray peekElt) (.notNull vs) (.notNull ws) := by
  intro rest
  obtain ⟨h0, hn⟩ := compact_length hlen
  rw [← ofNat_succ] at h0 hn
  rw [pokeNullableCompactArray, peekNullableCompactArray, List.append_assoc, peekUVarInt_poke]
  simp only [ok_bind, replicateMVec_reads hpos h hn]
  exact if_neg h0

omit hpos

theorem nullableKafkaArray_null : Reads (pokeNullableKafkaArray pokeElt) (peekNullableKafkaArray peekElt) .null .null := by
  intro rest
  rw [pokeNullableKafkaArray, peekNullableKafkaArray, pokeInt32BE, peekInt32BE, peekIntBE_poke]
  rfl

theorem nullableCompactArray_null :
    Reads (pokeNullableCompactArray pokeElt) (peekNullableCompactArray peekElt) .null .null := by
  intro rest
  rw [pokeNullableCompactArray, peekNullableCompactArray, peekUVarInt_poke]
  rfl

end

/-! ## Tagged fields -/

theorem toNat_ofNat_of_lt {n : Nat} (h : n < 2 ^ 32) : (UInt32.ofNat n).toNat = n := by
  rw [UInt32.toNat_ofNat', Nat.mod_eq_of_lt h]

/-- An entry of a new tag is put next to those that are there. -/
theorem insert_perm {m : AssocMap Tag Bytes} (hm : AssocMap.Ascending m) {e : Tag × Bytes}
    (hnew : e.1 ∉ m.map Prod.fst) : (AssocMap.insert e.1 e.2 m).Perm (e :: m) := by
  refine (hm.perm_insert e.1 e.2).trans (List.Perm.cons _ (List.Perm.of_eq (List.filter_eq_self.2 fun e' he' => ?_)))
  have hne : e'.1 ≠ e.1 := fun h => hnew (h ▸ List.mem_map_of_mem he')
  simpa using hne

theorem foldl_insert_perm (entries : List (Tag × Bytes)) : ∀ {acc : AssocMap Tag Bytes}, AssocMap.Ascending acc →
    ((acc ++ entries).map Prod.fst).Nodup →
    (entries.foldl (fun m e => AssocMap.insert e.1 e.2 m) acc).Perm (acc ++ entries) := by
  induction entries with
  | nil => exact fun _ _ => by rw [List.append_nil]; rfl
  | cons e entries ih =>
    intro acc hacc hnodup
    have hnew : e.1 ∉ acc.map Prod.fst := by
      intro hmem
      rw [List.map_append, List.nodup_append] at hnodup
      exact hnodup.2.2 _ hmem _ (List.mem_map_of_mem List.mem_cons_self) rfl
    have hperm : (AssocMap.insert e.1 e.2 acc ++ entries).Perm (acc ++ e :: entries) :=
      ((insert_perm hacc hnew).append_right entries).trans List.perm_middle.symm
    exact (ih (hacc.insert e.1 e.2) ((hperm.map Prod.fst).nodup_iff.2 hnodup)).trans hperm

theorem peekTaggedFieldsMap_go_reads (rest : Bytes) (entries : List (Tag × Bytes)) :
    ∀ {acc : AssocMap Tag Bytes}, (∀ e ∈ entries, e.2.length < 2 ^ 32) →
    peekTaggedFieldsMap.go entries.length (entries.flatMap pokeTaggedFieldEntry ++ rest) acc =
      .ok (entries.foldl (fun m e => AssocMap.insert e.1 e.2 m) acc, rest) := by
  induction entries with
  | nil => exact fun _ => rfl
  | cons e entries ih =>
    intro acc hsmall
    have hpayload := toNat_ofNat_of_lt (hsmall e List.mem_cons_self)
    rw [List.flatMap_cons, List.length_cons, peekTaggedFieldsMap.go, pokeTaggedFieldEntry]
    simp only [List.append_assoc, peekUVarInt_poke, ok_bind, peekByteString_append hpayload.symm]
    exact ih fun e' he' => hsmall e' (List.mem_cons_of_mem _ he')

theorem taggedFields_reads {entries : List (Tag × Bytes)} (hcount : entries.length < 2 ^ 32)
    (hsmall : ∀ e ∈ entries, e.2.length < 2 ^ 32) :
    Reads pokeTaggedFieldEntries peekTaggedFieldsMap entries (AssocMap.fromList entries) := by
  intro rest
  rw [pokeTaggedFieldEntries, peekTaggedFieldsMap, List.append_assoc, peekUVarInt_poke]
  simp only [ok_bind, toNat_ofNat_of_lt hcount]
  exact peekTaggedFieldsMap_go_reads rest entries hsmall

theorem fromList_perm {entries : List (Tag × Bytes)} (hnodup : (entries.map Prod.fst).Nodup) :
    (AssocMap.fromList entries).Perm entries :=
  foldl_insert_perm entries List.Pairwise.nil hnodup

end Wireform.Kafka.Wire

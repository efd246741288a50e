/-
  The lookups of a compiled parse table.

  * `decodeTag_iff` and `fieldTag_toNat`: a tag word holds the field number and
    the wire type;
  * `lookup_tagIndexMap`: the map finds the parser with a tag;
  * `findField_eq`: the one-byte table, the predicted field and the error links
    find the parser that the map finds;
  * `findField_declared`, `findField_undeclared`: hence a tag finds the field
    that the schema declares with it, or nothing.
-/
import Mathlib.Data.List.Nodup
import Mathlib.Tactic.IntervalCases
import Wireform.Proto.Dynamic

namespace Wireform.Proto

open AssocMap

/-! ## Tag words -/

/-- A wire type as a number. -/
def WireType.num (wt : WireType) : Nat := (wireTypeToWord wt).toNat

theorem WireType.num_lt (wt : WireType) : wt.num < 8 := by
  cases wt <;> decide

theorem and_seven (n : Nat) : n &&& 7 = n % 8 := by
  have h : n &&& (2 ^ 3 - 1) = n % 2 ^ 3 := Nat.and_two_pow_sub_one_eq_mod n 3
  exact h

theorem wireTypeFromTag_iff (n : UInt32) (wt : WireType) :
    wireTypeFromTag n = some wt ↔ n.toNat % 8 = wt.num := by
  have hn : (n &&& 0x07).toNat = n.toNat % 8 := by
    rw [UInt32.toNat_and, show (0x07 : UInt32).toNat = 7 from rfl, and_seven]
  unfold wireTypeFromTag
  rw [hn]
  have hlt : n.toNat % 8 < 8 := Nat.mod_lt _ (by omega)
  interval_cases n.toNat % 8 <;> cases wt <;> decide

theorem decodeTag_iff (w : UInt64) (fn : Int) (wt : WireType) :
    decodeTag w = some ⟨fn, wt⟩ ↔ w.toNat % 8 = wt.num ∧ fn = (w.toNat / 8 : Nat) ∧ fn ≠ 0 := by
  have h3 : (w >>> 3).toNat = w.toNat / 8 := by
    rw [UInt64.toNat_shiftRight, show (3 : UInt64).toNat % 64 = 3 from rfl, Nat.shiftRight_eq_div_pow]
  have hof : ofWord (w >>> 3) = (w.toNat / 8 : Nat) := by
    have := w.toNat_lt
    rw [ofWord_lt (by rw [h3]; omega), h3]
  have h7 : (w &&& 0x07).toUInt32.toNat % 8 = w.toNat % 8 := by
    rw [UInt64.toNat_toUInt32, UInt64.toNat_and, show (0x07 : UInt64).toNat = 7 from rfl, and_seven]
    omega
  unfold decodeTag
  rw [← h7, ← wireTypeFromTag_iff]
  cases wireTypeFromTag (w &&& 0x07).toUInt32 with
  | none => simp
  | some wt' =>
    simp only [hof, Option.some.injEq]
    split
    · simp_all
    · rename_i hne
      rw [Option.some.injEq, Tag.mk.injEq]
      constructor
      · rintro ⟨rfl, rfl⟩
        exact ⟨rfl, rfl, hne⟩
      · rintro ⟨rfl, rfl, -⟩
        exact ⟨rfl, rfl⟩

/-- The word of a tag: the wire type below the field number. -/
theorem fieldTag_toNat {fn : Int} (h0 : 0 ≤ fn) (h1 : fn < 2 ^ 61) (wt : WireType) :
    (fieldTag fn wt).toNat = 8 * fn.toNat + wt.num := by
  obtain ⟨k, rfl⟩ := Int.eq_ofNat_of_zero_le h0
  have hk : k < 2 ^ 61 := by omega
  have hof : (UInt64.ofInt (k : Int)).toNat = k := by
    rw [UInt64.ofInt, UInt64.toNat_ofNat']; omega
  have hw := wt.num_lt
  unfold fieldTag encodeTag
  rw [UInt64.toNat_or, UInt64.toNat_shiftLeft, hof, show (3 : UInt64).toNat % 64 = 3 from rfl,
    Nat.shiftLeft_eq, Nat.mod_eq_of_lt (by omega), UInt32.toNat_toUInt64, ← Nat.shiftLeft_eq]
  change k <<< 3 ||| wt.num = _
  rw [← Nat.shiftLeft_add_eq_or_of_lt (by omega), Nat.shiftLeft_eq, Int.toNat_natCast]
  omega

/-- The tag word that decodes to a field number and a wire type is the one
    that encodes them. -/
theorem fieldTag_eq_iff {fn : Int} (h0 : 0 < fn) (h1 : fn < 2 ^ 61) (wt : WireType) (w : UInt64) :
    fieldTag fn wt = w ↔ decodeTag w = some ⟨fn, wt⟩ := by
  have hw := wt.num_lt
  rw [decodeTag_iff, ← UInt64.toNat_inj, fieldTag_toNat h0.le h1]
  omega

theorem ofWord_inj {w w' : UInt64} (h : ofWord w = ofWord w') : w = w' := by
  have hw := w.toNat_lt
  have hw' := w'.toNat_lt
  rw [← UInt64.toNat_inj]
  unfold ofWord wrap at h
  omega

/-! ## The tag map -/

variable (sc : Schema)

/-- The `i`-th parser is compiled from the `i`-th descriptor. -/
theorem fieldParsers_getElem? (i : Nat) :
    (fieldParsers sc)[i]? =
      (sc.fieldDescriptors[i]?).map (mkFieldParser i sc.fieldDescriptors.length) := by
  rw [fieldParsers, List.getElem?_mapIdx]

/-- Fields of one number are one field. -/
theorem Schema.eq_of_number {fd fd' : FieldDescriptor} (h : fd ∈ sc.fieldDescriptors)
    (h' : fd' ∈ sc.fieldDescriptors) (hn : fd.fdNumber = fd'.fdNumber) : fd = fd' := by
  have hd : (sc.fieldDescriptors.map (·.fdNumber)).Nodup := sc.ascending.imp ne_of_lt
  exact List.inj_on_of_nodup_map hd h h' hn

/-- The tag of a declared field, as a number. -/
theorem Schema.tag_toNat {fd : FieldDescriptor} (h : fd ∈ sc.fieldDescriptors) :
    (fieldTag fd.fdNumber (fieldWireType fd.fdTypeDesc)).toNat =
      8 * fd.fdNumber.toNat + (fieldWireType fd.fdTypeDesc).num :=
  fieldTag_toNat (sc.positive fd h).le (sc.small fd h) _

/-- Fields of one tag are one field. -/
theorem Schema.eq_of_tag {fd fd' : FieldDescriptor} (h : fd ∈ sc.fieldDescriptors)
    (h' : fd' ∈ sc.fieldDescriptors) (ht : fieldTag fd.fdNumber (fieldWireType fd.fdTypeDesc) =
      fieldTag fd'.fdNumber (fieldWireType fd'.fdTypeDesc)) : fd = fd' := by
  have hn := congrArg UInt64.toNat ht
  rw [sc.tag_toNat h, sc.tag_toNat h'] at hn
  have h1 := (fieldWireType fd.fdTypeDesc).num_lt
  have h2 := (fieldWireType fd'.fdTypeDesc).num_lt
  have h3 := sc.positive fd h
  have h4 := sc.positive fd' h'
  exact sc.eq_of_number h h' (by omega)

/-- The entries of the tag map. -/
def tagEntries : List (Int × Nat) := (fieldParsers sc).mapIdx fun i fp => (ofWord fp.fpTag, i)

theorem mem_tagEntries (k : Int) (i : Nat) :
    (k, i) ∈ tagEntries sc ↔ ∃ fd, sc.fieldDescriptors[i]? = some fd ∧
      k = ofWord (fieldTag fd.fdNumber (fieldWireType fd.fdTypeDesc)) := by
  rw [List.mem_iff_getElem?]
  constructor
  · rintro ⟨j, hj⟩
    rw [tagEntries, List.getElem?_mapIdx, fieldParsers_getElem?] at hj
    cases hfd : sc.fieldDescriptors[j]? with
    | none => simp [hfd] at hj
    | some fd =>
      simp only [hfd, Option.map_some, Option.some.injEq, Prod.mk.injEq] at hj
      obtain ⟨rfl, rfl⟩ := hj
      exact ⟨fd, hfd, rfl⟩
  · rintro ⟨fd, hfd, rfl⟩
    refine ⟨i, ?_⟩
    rw [tagEntries, List.getElem?_mapIdx, fieldParsers_getElem?, hfd]
    rfl

theorem tagEntries_nodup : ((tagEntries sc).map Prod.fst).Nodup := by
  rw [List.nodup_iff_getElem?_ne_getElem?]
  intro i j hij hj heq
  simp only [List.length_map] at hj
  rw [List.getElem?_map, List.getElem?_map, tagEntries, List.getElem?_mapIdx, List.getElem?_mapIdx,
    fieldParsers_getElem?, fieldParsers_getElem?] at heq
  have hlen : (tagEntries sc).length = sc.fieldDescriptors.length := by
    simp [tagEntries, fieldParsers]
  rw [hlen] at hj
  rw [List.getElem?_eq_getElem hj, List.getElem?_eq_getElem (hij.trans hj)] at heq
  simp only [Option.map_some, Option.some.injEq] at heq
  have hfd := sc.eq_of_tag (List.getElem_mem _) (List.getElem_mem _) (ofWord_inj heq)
  have hlt := List.pairwise_iff_getElem.1 (List.pairwise_map.1 sc.ascending) i j (hij.trans hj) hj hij
  rw [hfd] at hlt
  exact lt_irrefl _ hlt

/-- **The tag map** finds the index of the parser with a tag. -/
theorem lookup_tagIndexMap (w : UInt64) (i : Nat) :
    lookup (ofWord w) (tagIndexMap sc) = some i ↔ ∃ fd, sc.fieldDescriptors[i]? = some fd ∧
      fieldTag fd.fdNumber (fieldWireType fd.fdTypeDesc) = w := by
  constructor
  · intro h
    obtain ⟨fd, hfd, hk⟩ := (mem_tagEntries sc _ _).1 (mem_of_lookup_fromList h)
    exact ⟨fd, hfd, (ofWord_inj hk).symm⟩
  · rintro ⟨fd, hfd, rfl⟩
    exact lookup_fromList_of_mem (tagEntries_nodup sc) ((mem_tagEntries sc _ _).2 ⟨fd, hfd, rfl⟩)

/-! ## The shortcuts -/

/-- The `i`-th field number is above `i`. -/
theorem index_lt_number : ∀ (i : Nat) (fd : FieldDescriptor),
    sc.fieldDescriptors[i]? = some fd → (i : Int) < fd.fdNumber
  | 0, fd, h => sc.positive fd (List.mem_of_getElem? h)
  | i + 1, fd, h => by
    obtain ⟨hi, hfd⟩ := List.getElem?_eq_some_iff.1 h
    have hi' : i < sc.fieldDescriptors.length := by omega
    have hp := List.pairwise_iff_getElem.1 (List.pairwise_map.1 sc.ascending) i (i + 1) hi' hi
      (by omega)
    have ih := index_lt_number i _ (List.getElem?_eq_getElem hi')
    rw [hfd] at hp
    push_cast
    omega

/-- The error links end where the map does. -/
theorem walkErr_eq (w : UInt64) : ∀ (tries curIdx : Nat),
    walkErr (compileParseTable sc) w curIdx tries = lookup (ofWord w) (tagIndexMap sc)
  | 0, _ => rfl
  | tries + 1, curIdx => by
    unfold walkErr
    rw [show (compileParseTable sc).ptFields = fieldParsers sc from rfl, fieldParsers_getElem?]
    cases hfd : sc.fieldDescriptors[curIdx]? with
    | none => rfl
    | some fd =>
      simp only [Option.map_some]
      split
      · rename_i htag
        exact ((lookup_tagIndexMap sc w curIdx).2 ⟨fd, hfd, htag⟩).symm
      · exact walkErr_eq w tries _

/-- An entry of the one-byte table is the map's index, or the miss mark. -/
theorem tagLUTEntry_eq {w : UInt64} (hw : w.toNat < 128) :
    (if tagLUTEntry sc w.toNat ≠ 0xFF then some (tagLUTEntry sc w.toNat).toNat else none) =
      lookup (ofWord w) (tagIndexMap sc) := by
  unfold tagLUTEntry
  rw [← ofWord_lt (w := w) (by omega)]
  cases hi : lookup (ofWord w) (tagIndexMap sc) with
  | none => simp
  | some idx =>
    obtain ⟨fd, hfd, htag⟩ := (lookup_tagIndexMap sc w idx).1 hi
    have hmem := List.mem_of_getElem? hfd
    have hn := index_lt_number sc idx fd hfd
    have ht := sc.tag_toNat hmem
    rw [htag] at ht
    -- one-byte tags hold numbers up to 15, so the index is below the mark
    have hidx : idx < 255 := by omega
    have hto : (UInt8.ofNat idx).toNat = idx := by
      rw [UInt8.toNat_ofNat']; omega
    have hne : UInt8.ofNat idx ≠ 0xFF := by
      intro he
      rw [he] at hto
      have : (0xFF : UInt8).toNat = 255 := rfl
      omega
    simp only [if_pos (show idx < 256 by omega), if_pos hne, hto]

/-- **Every way of finding a field agrees with the map.** -/
theorem findField_eq (w : UInt64) (curIdx : Nat) :
    findField (compileParseTable sc) w curIdx = .done (lookup (ofWord w) (tagIndexMap sc)) := by
  unfold findField
  split
  · rename_i hsmall
    have hw : w.toNat < 128 := by
      have := ofWord_lt ((ofWord_nonneg_iff w).1 hsmall.1)
      omega
    have hget : (compileParseTable sc).ptTagLUT[(ofWord w).toNat]? = some (tagLUTEntry sc w.toNat) := by
      rw [ofWord_lt (by omega), Int.toNat_natCast]
      simp [compileParseTable, hw]
    rw [hget]
    simp only [tagLUTEntry_eq sc hw]
  · rw [show (compileParseTable sc).ptFields = fieldParsers sc from rfl, fieldParsers_getElem?]
    cases hfd : sc.fieldDescriptors[curIdx]? with
    | none => simp only [Option.map_none, walkErr_eq]
    | some fd =>
      simp only [Option.map_some]
      split
      · rename_i htag
        rw [(lookup_tagIndexMap sc w curIdx).2 ⟨fd, hfd, htag⟩]
      · rw [walkErr_eq]

/-- A field descriptor that declares a tag. -/
def FieldDescriptor.Declares (fd : FieldDescriptor) (fn : Int) (wt : WireType) : Prop :=
  fd.fdNumber = fn ∧ fieldWireType fd.fdTypeDesc = wt

instance (fd : FieldDescriptor) (fn : Int) (wt : WireType) : Decidable (fd.Declares fn wt) := by
  unfold FieldDescriptor.Declares; infer_instance

variable {sc} {w : UInt64} {fn : Int} {wt : WireType}

theorem declares_iff_tag {fd : FieldDescriptor} (h : fd ∈ sc.fieldDescriptors)
    (hw : decodeTag w = some ⟨fn, wt⟩) :
    fieldTag fd.fdNumber (fieldWireType fd.fdTypeDesc) = w ↔ fd.Declares fn wt := by
  rw [fieldTag_eq_iff (sc.positive fd h) (sc.small fd h), hw, Option.some.injEq, Tag.mk.injEq]
  exact ⟨fun he => ⟨he.1.symm, he.2.symm⟩, fun he => ⟨he.1.symm, he.2.symm⟩⟩

/-- A tag that a field declares finds its parser. -/
theorem findField_declared {fd : FieldDescriptor} (h : fd ∈ sc.fieldDescriptors)
    (hw : decodeTag w = some ⟨fn, wt⟩) (hd : fd.Declares fn wt) (curIdx : Nat) :
    ∃ idx, findField (compileParseTable sc) w curIdx = .done (some idx) ∧
      (compileParseTable sc).ptFields[idx]? =
        some (mkFieldParser idx sc.fieldDescriptors.length fd) := by
  obtain ⟨idx, hidx⟩ := List.mem_iff_getElem?.1 h
  refine ⟨idx, ?_, ?_⟩
  · rw [findField_eq, (lookup_tagIndexMap sc w idx).2 ⟨fd, hidx, (declares_iff_tag h hw).2 hd⟩]
  · rw [show (compileParseTable sc).ptFields = fieldParsers sc from rfl, fieldParsers_getElem?, hidx]
    rfl

/-- A tag that no field declares is unknown. -/
theorem findField_undeclared (hw : decodeTag w = some ⟨fn, wt⟩)
    (hno : ∀ fd ∈ sc.fieldDescriptors, ¬ fd.Declares fn wt) (curIdx : Nat) :
    findField (compileParseTable sc) w curIdx = .done none := by
  rw [findField_eq]
  cases hl : lookup (ofWord w) (tagIndexMap sc) with
  | none => rfl
  | some idx =>
    obtain ⟨fd, hfd, htag⟩ := (lookup_tagIndexMap sc w idx).1 hl
    have hmem := List.mem_of_getElem? hfd
    exact absurd ((declares_iff_tag hmem hw).1 htag) (hno fd hmem)

end Wireform.Proto

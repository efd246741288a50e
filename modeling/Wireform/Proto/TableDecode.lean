/-
  One step of decoding with a parse table, against the fields on the wire.

  * `FieldTypeDescriptor.value` is what a field type makes of a wire value, and
    `mkThunk_eq` says that a thunk computes it;
  * `decodeTagFast_eq`: the tag decoder reads the tag that `getTagOrU` reads;
  * `go_end`, `go_group`, `go_skip`, `go_hit`: what the loop does with the next
    field, by the schema.
-/
import Wireform.Proto.WireFields

namespace Wireform.Proto

open AssocMap

variable {bs : ByteString} {off : Int}

/-! ## Typed values -/

/-- A varint as a value of a field type. -/
def FieldTypeDescriptor.ofVarint : FieldTypeDescriptor → UInt64 → DynamicValue
  | .scalarType .boolField, v => .dynBool (v != 0)
  | .enumType _, v => .dynEnum (ofWord v)
  | _, v => .dynVarint v

def FieldTypeDescriptor.ofFixed32 : FieldTypeDescriptor → UInt32 → DynamicValue
  | .scalarType .floatField, v => .dynFloat v
  | _, v => .dynFixed32 v

def FieldTypeDescriptor.ofFixed64 : FieldTypeDescriptor → UInt64 → DynamicValue
  | .scalarType .doubleField, v => .dynDouble v
  | _, v => .dynFixed64 v

/-- A payload as a value of a field type: texts have to be UTF-8, and
    submessages well-formed. -/
def FieldTypeDescriptor.ofBytes (n : Nat) : FieldTypeDescriptor → ByteString → Run DynamicValue
  | .scalarType .stringField, bytes => (decodeTextValue bytes).map .dynString
  | .messageType _, bytes => (decodeSubmsg n bytes).map .dynMessage
  | _, bytes => .right (.dynBytes bytes)

/-- What a field type makes of a wire value. -/
def FieldTypeDescriptor.value (n : Nat) (td : FieldTypeDescriptor) : DynamicValue → Outcome DynamicValue
  | .dynVarint v => .done (td.ofVarint v)
  | .dynFixed32 v => .done (td.ofFixed32 v)
  | .dynFixed64 v => .done (td.ofFixed64 v)
  | .dynBytes bytes => (td.ofBytes n bytes).orThrow "dynamic len-delim decode: "
  | _ => .fault

/-- `v` is the value of a field of type `td` for the wire value `raw`. -/
def FieldTypeDescriptor.Reads (td : FieldTypeDescriptor) (raw v : DynamicValue) : Prop :=
  ∃ n, td.value n raw = .done v

variable {td : FieldTypeDescriptor} {α β : Type}

@[simp] theorem Outcome.bind_done (a : α) (k : α → Outcome β) :
    (Outcome.done a).bind k = k a := rfl

@[simp] theorem Outcome.bind_throws (what : String) (e : DecodeError)
    (k : α → Outcome β) : (Outcome.throws what e).bind k = .throws what e := rfl

@[simp] theorem Outcome.bind_fault (k : α → Outcome β) :
    Outcome.fault.bind k = .fault := rfl

@[simp] theorem Outcome.bind_more (k : α → Outcome β) :
    Outcome.more.bind k = .more := rfl

theorem mkThunk_varint (h : fieldWireType td = .varint) (n : Nat) :
    mkThunk n td = thunkVarint td.ofVarint := by
  rcases td with s | _ | _ | _
  · cases s <;> first | rfl | cases h
  all_goals first | rfl | cases h

theorem mkThunk_bit32 (h : fieldWireType td = .bit32) (n : Nat) :
    mkThunk n td = thunkFixed32 td.ofFixed32 := by
  rcases td with s | _ | _ | _
  · cases s <;> first | rfl | cases h
  all_goals cases h

theorem mkThunk_bit64 (h : fieldWireType td = .bit64) (n : Nat) :
    mkThunk n td = thunkFixed64 td.ofFixed64 := by
  rcases td with s | _ | _ | _
  · cases s <;> first | rfl | cases h
  all_goals cases h

theorem mkThunk_lengthDelimited
    (h : fieldWireType td = .lengthDelimited) (n : Nat) :
    mkThunk n td = thunkLenDelim (td.ofBytes n) := by
  rcases td with s | _ | _ | _
  · cases s <;> first | rfl | cases h
  all_goals first | rfl | cases h

theorem fieldWireType_not_group (td : FieldTypeDescriptor) : ¬ (fieldWireType td).Group := by
  rcases td with s | _ | _ | _
  · cases s <;> decide
  all_goals rintro (h | h) <;> cases h

/-- **A thunk computes the value of its field type**, from the value that
    `decodeWireValue` reads at the same place. -/
theorem mkThunk_eq {m : Nat} {raw : DynamicValue} {off' : Int}
    (h : decodeWireValue m (fieldWireType td) bs off = .ok raw off') (n : Nat) :
    mkThunk n td bs off = (td.value n raw).bind fun v => .done (v, off') := by
  unfold decodeWireValue at h
  cases hwt : fieldWireType td with
  | varint =>
    rw [mkThunk_varint hwt, thunkVarint]
    cases hr : getVarint bs off with
    | ok v o => simp only [hwt, hr, Result.bind_ok] at h; cases h; rfl
    | _ => simp [hwt, hr] at h
  | bit32 =>
    rw [mkThunk_bit32 hwt, thunkFixed32]
    cases hr : getFixed32 bs off with
    | ok v o => simp only [hwt, hr, Result.bind_ok] at h; cases h; rfl
    | _ => simp [hwt, hr] at h
  | bit64 =>
    rw [mkThunk_bit64 hwt, thunkFixed64]
    cases hr : getFixed64 bs off with
    | ok v o => simp only [hwt, hr, Result.bind_ok] at h; cases h; rfl
    | _ => simp [hwt, hr] at h
  | lengthDelimited =>
    rw [mkThunk_lengthDelimited hwt, thunkLenDelim]
    cases hr : getLengthDelimited bs off with
    | ok s o =>
      simp only [hwt, hr, Result.bind_ok, withSlice] at h
      split at h
      · rename_i hin
        cases h
        simp only [Result.orThrow, Outcome.bind_done, if_pos hin]
        rfl
      · cases h
    | _ => simp [hwt, hr] at h
  | startGroup => exact absurd (Or.inl hwt) (fieldWireType_not_group td)
  | endGroup => exact absurd (Or.inr hwt) (fieldWireType_not_group td)

/-- More steps do not change a value. -/
theorem FieldTypeDescriptor.value_mono {raw v : DynamicValue} {n m : Nat}
    (hnm : n ≤ m) (h : td.value n raw = .done v) : td.value m raw = .done v := by
  cases raw with
  | dynBytes bytes =>
    rcases td with s | name | _ | _
    · cases s <;> exact h
    · simp only [value, ofBytes, decodeSubmsg] at h ⊢
      cases hd : decodeDynamic n bytes with
      | right d => rw [hd] at h; rw [decodeDynamic_mono hnm hd]; exact h
      | _ => rw [hd] at h; cases h
    · exact h
    · exact h
  | _ => exact h

/-- The value of a field is never a repeated one. -/
theorem FieldTypeDescriptor.Reads.plain {raw v : DynamicValue}
    (h : td.Reads raw v) (vs : List DynamicValue) : v ≠ .dynRepeated vs := by
  rintro rfl
  obtain ⟨n, h⟩ := h
  cases raw with
  | dynVarint v | dynFixed32 v | dynFixed64 v =>
    simp only [value, Outcome.done.injEq] at h
    revert h
    simp only [ofVarint, ofFixed32, ofFixed64]
    split <;> intro h <;> cases h
  | dynBytes bytes =>
    simp only [value] at h
    revert h
    unfold ofBytes
    split
    · cases decodeTextValue bytes <;> intro h <;> cases h
    · cases decodeSubmsg n bytes <;> intro h <;> cases h
    · intro h; cases h
  | _ => cases h

/-! ## The tag decoder -/

/-- **Decoding a tag from one loaded word** gives what the slow decoder
    gives. -/
theorem decodeTagFast_eq (h : At bs off) : decodeTagFast bs off = decodeTagSlow bs off := by
  unfold decodeTagFast relocatePageBoundary
  have hlo := h.lo
  rw [h.add (show (0 : Int) ≤ 8 by omega) (by omega), if_pos hlo]
  split
  · rename_i hroom
    have hdl := h.inside.drop_length
    have hl : ((bs.drop off.toNat).take 8).length = 8 := by
      rw [List.length_take]; omega
    cases hd : decodeVarintSwar (loadWord ((bs.drop off.toNat).take 8)) with
    | none => rfl
    | some r =>
      obtain ⟨v, consumed⟩ := r
      obtain ⟨hlazy, hc⟩ := decodeVarintSwar_eq hl hd ((bs.drop off.toNat).drop 8)
      rw [List.take_append_drop] at hlazy
      unfold decodeTagSlow
      rw [getVarint_eq h, hlazy]
      have hoff : bsLen bs - (((bs.drop off.toNat).drop consumed).length : Int) = off + consumed := by
        rw [List.length_drop]; omega
      simp only [ofLazy, hoff, h.add (show (0 : Int) ≤ consumed by omega) (by omega)]
  · rfl

/-! ## The next field -/

section

variable (sc : Schema) {n k curIdx : Nat} {fields : AssocMap Int DynamicValue} {fn : Int}
  {wt : WireType} {off' off'' : Int} {raw : DynamicValue}

theorem go_end (h : bsLen bs ≤ off) :
    decodeDynamicWithSchema.go (compileParseTable sc) bs (k + 1) off curIdx fields = .done fields := by
  unfold decodeDynamicWithSchema.go
  rw [if_pos h]

/-- The step of the loop at a tag that `getTagOrU` reads, by what `findField`
    and `skipWireValue` give. -/
theorem go_tag (k curIdx : Nat) (fields : AssocMap Int DynamicValue) (h : At bs off)
    (ht : getTagOrU bs off = .ok (some ⟨fn, wt⟩) off') : ∃ w, decodeTag w = some ⟨fn, wt⟩ ∧
      (∀ idx fp, findField (compileParseTable sc) w curIdx = .done (some idx) →
        (compileParseTable sc).ptFields[idx]? = some fp →
        decodeDynamicWithSchema.go (compileParseTable sc) bs (k + 1) off curIdx fields =
          (fp.fpParse k bs off').bind fun r =>
            decodeDynamicWithSchema.go (compileParseTable sc) bs k r.2 fp.fpNextOk
              (storeField fp.fpLabel fp.fpFieldNum r.1 fields)) ∧
      (findField (compileParseTable sc) w curIdx = .done none →
        (∀ off2, skipWireValue wt.num bs off' = .done (some off2) →
          decodeDynamicWithSchema.go (compileParseTable sc) bs (k + 1) off curIdx fields =
            decodeDynamicWithSchema.go (compileParseTable sc) bs k off2 curIdx fields) ∧
        (skipWireValue wt.num bs off' = .done none →
          decodeDynamicWithSchema.go (compileParseTable sc) bs (k + 1) off curIdx fields =
            .done fields)) := by
  obtain ⟨hlt, w, hw, hdec⟩ := getTagOrU_word ht
  have hnum : (w % 8).toNat = wt.num := by
    rw [UInt64.toNat_mod, ← ((decodeTag_iff w fn wt).1 hdec).1]
    rfl
  have hle : ¬ off' > bsLen bs := not_lt.2 (getTagOrU_some h ht).2
  refine ⟨w, hdec, ?_, ?_⟩
  · intro idx fp hfind hget
    rw [decodeDynamicWithSchema.go, if_neg (not_le.2 hlt), decodeTagFast_eq h, decodeTagSlow, hw]
    simp only [Outcome.bind_done, if_neg hle, hfind, hget]
  · intro hfind
    constructor
    · intro off2 hskip
      rw [decodeDynamicWithSchema.go, if_neg (not_le.2 hlt), decodeTagFast_eq h, decodeTagSlow, hw]
      simp only [Outcome.bind_done, if_neg hle, hfind, hnum, hskip]
    · intro hskip
      rw [decodeDynamicWithSchema.go, if_neg (not_le.2 hlt), decodeTagFast_eq h, decodeTagSlow, hw]
      simp only [Outcome.bind_done, if_neg hle, hfind, hnum, hskip]

/-- A field that the schema declares is parsed and stored. -/
theorem go_hit {i : Nat} {r : AssocMap Int DynamicValue} (h : At bs off) (ht : getTagOrU bs off = .ok (some ⟨fn, wt⟩) off')
    (hv : decodeWireValue n wt bs off' = .ok raw off'') {fd : FieldDescriptor}
    (hfd : fd ∈ sc.fieldDescriptors) (hd : fd.Declares fn wt) :
    ∃ next, decodeDynamicWithSchema.go (compileParseTable sc) bs (k + 1) off i r =
      (fd.fdTypeDesc.value k raw).bind fun v =>
        decodeDynamicWithSchema.go (compileParseTable sc) bs k off'' next
          (storeField fd.fdLabel fd.fdNumber v r) := by
  obtain ⟨w, hdec, hgo, -⟩ := go_tag sc k i r h ht
  obtain ⟨idx, hfind, hget⟩ := findField_declared hfd hdec hd i
  refine ⟨(idx + 1) % sc.fieldDescriptors.length, ?_⟩
  rw [hgo idx _ hfind hget]
  simp only [FieldParser.fpParse, mkFieldParser]
  obtain rfl := hd.2
  rw [mkThunk_eq hv]
  cases fd.fdTypeDesc.value k raw <;> rfl

/-- `skipWireValue` skips the values that `decodeWireValue` reads, groups
    apart. -/
theorem skipWireValue_eq (hg : ¬ wt.Group)
    (hv : decodeWireValue n wt bs off = .ok raw off') :
    skipWireValue wt.num bs off = .done (some off') := by
  unfold decodeWireValue at hv
  cases wt with
  | varint =>
    cases hr : getVarint bs off with
    | ok w o =>
      simp only [hr, Result.bind_ok] at hv
      cases hv
      simp [skipWireValue, WireType.num, wireTypeToWord, hr]
    | _ => simp [hr] at hv
  | bit64 =>
    simp only [getFixed64, getFixed] at hv
    split at hv
    · simp at hv
    · rename_i hle
      cases hr : readLE 8 bs off with
      | none => simp [hr] at hv
      | some v =>
        simp only [hr, Result.bind_ok] at hv
        cases hv
        simp only [skipWireValue, WireType.num, wireTypeToWord]
        exact congrArg _ (if_pos (not_lt.1 hle))
  | bit32 =>
    simp only [getFixed32, getFixed] at hv
    split at hv
    · simp at hv
    · rename_i hle
      cases hr : readLE 4 bs off with
      | none => simp [hr] at hv
      | some v =>
        simp only [hr, Result.bind_ok] at hv
        cases hv
        simp only [skipWireValue, WireType.num, wireTypeToWord]
        exact congrArg _ (if_pos (not_lt.1 hle))
  | lengthDelimited =>
    unfold getLengthDelimited at hv
    cases hr : getVarint bs off with
    | ok w o =>
      simp only [hr, Result.bind_ok] at hv
      split at hv
      · simp at hv
      · split at hv
        · simp at hv
        · rename_i hle
          simp only [Result.bind_ok, withSlice] at hv
          split at hv
          · cases hv
            have h2 : (WireType.lengthDelimited).num = 2 := rfl
            simp only [skipWireValue, h2, hr]
            exact congrArg _ (if_pos (not_lt.1 hle))
          · cases hv
    | _ => simp [hr] at hv
  | startGroup => exact absurd (Or.inl rfl) hg
  | endGroup => exact absurd (Or.inr rfl) hg

/-- A field that the schema does not declare is skipped. -/
theorem go_skip (h : At bs off) (ht : getTagOrU bs off = .ok (some ⟨fn, wt⟩) off')
    (hg : ¬ wt.Group) (hv : decodeWireValue n wt bs off' = .ok raw off'')
    (hno : ∀ fd ∈ sc.fieldDescriptors, ¬ fd.Declares fn wt) :
    decodeDynamicWithSchema.go (compileParseTable sc) bs (k + 1) off curIdx fields =
      decodeDynamicWithSchema.go (compileParseTable sc) bs k off'' curIdx fields := by
  obtain ⟨w, hdec, -, hgo⟩ := go_tag sc k curIdx fields h ht
  exact (hgo (findField_undeclared hdec hno curIdx)).1 off'' (skipWireValue_eq hg hv)

/-- A group ends the loop. -/
theorem go_group (h : At bs off) (ht : getTagOrU bs off = .ok (some ⟨fn, wt⟩) off')
    (hg : wt.Group) :
    decodeDynamicWithSchema.go (compileParseTable sc) bs (k + 1) off curIdx fields = .done fields := by
  obtain ⟨w, hdec, -, hgo⟩ := go_tag sc k curIdx fields h ht
  have hno : ∀ fd ∈ sc.fieldDescriptors, ¬ fd.Declares fn wt := by
    intro fd _ hd
    exact fieldWireType_not_group fd.fdTypeDesc (hd.2 ▸ hg)
  have hskip : skipWireValue wt.num bs off' = .done none := by
    rcases hg with rfl | rfl <;> rfl
  exact (hgo (findField_undeclared hdec hno curIdx)).2 hskip

end

end Wireform.Proto

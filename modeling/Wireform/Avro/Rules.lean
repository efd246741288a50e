/-
  The rules of schema resolution.

  * `Prescribes`: the reader's value of a writer's value, by recursion over the
    schemas and the value, without a plan;
  * `Prescribes.conforms`: it is a value of the reader's type;
  * `Regular`: the values that reach no reader union of another schema and no
    default of another type.
-/
import Wireform.Avro.Resolution

namespace Wireform.Avro

/-! ## Prescribed values -/

/-- Numbers of a wider type. -/
inductive Promotes : AvroSchema → AvroSchema → Value → Value → Prop
  | intToLong (n) : Promotes .int .long (.int n) (.long n.toInt64)
  | intToFloat (n) : Promotes .int .float (.int n) (.float n.toFloat32)
  | intToDouble (n) : Promotes .int .double (.int n) (.double n.toFloat)
  | longToFloat (n) : Promotes .long .float (.long n) (.float n.toFloat32)
  | longToDouble (n) : Promotes .long .double (.long n) (.double n.toFloat)
  | floatToDouble (x) : Promotes .float .double (.float x) (.double x.toFloat)

def Resolvable (w r : AvroType) : Prop := ∃ plan, resolveSchema w r = .ok plan

/-- The first branch that a type can be resolved against. -/
def FirstMatch (w : AvroType) (branches : List AvroType) (j : Nat) : Prop :=
  (∃ b, branches[j]? = some b ∧ Resolvable w b) ∧ ∀ k < j, ∀ b, branches[k]? = some b → ¬ Resolvable w b

/-- The declared default as a value of a type; of a union it is one of the first branch. -/
inductive DefaultValue : AvroType → AvroSchema → Value → Prop
  | primitive {d} (hd : ∀ name, d ≠ .schemaRef name) : DefaultValue (.primitive d) d (defaultToValue (.primitive d) d)
  | logical {base l d v} (h : DefaultValue base d v) : DefaultValue (.logical base l) d v
  | union {b bs d v} (h : DefaultValue b d v) : DefaultValue (.union (b :: bs)) d (.union 0 v)

mutual
/-- A writer's value has this value for the reader. -/
inductive Prescribes : AvroType → AvroType → Value → Value → Prop
  | same (t v) : Prescribes t t v v
  | primitive {a b v v'} (h : Promotes a b v v') : Prescribes (.primitive a) (.primitive b) v v'
  /-- the branch that was written -/
  | writerUnion {ws r i b u v'} (hne : .union ws ≠ r) (hb : ws[i]? = some b) (h : Prescribes b r u v') :
      Prescribes (.union ws) r (.union i u) v'
  /-- the first branch that matches, with its tag -/
  | readerUnion {w rs j b v u} (hw : ∀ ws, w ≠ .union ws) (hj : FirstMatch w rs j) (hb : rs[j]? = some b)
      (h : Prescribes w b v u) : Prescribes w (.union rs) v (.union j u)
  | record {wi wFields ri rFields vs vs'} (hne : AvroType.record wi wFields ≠ .record ri rFields)
      (h : PrescribesFields wFields vs rFields vs') :
      Prescribes (.record wi wFields) (.record ri rFields) (.record vs) (.record vs')
  | enum {wi wSyms ri rSyms i j sym} (hne : AvroType.enum wi wSyms ≠ .enum ri rSyms) (hi : wSyms[i]? = some sym)
      (hj : (rSyms.findIdx? fun s => s = sym) = some j) : Prescribes (.enum wi wSyms) (.enum ri rSyms) (.enum i) (.enum j)
  | array {wt rt vs vs'} (hne : wt ≠ rt) (h : PrescribesItems wt rt vs vs') :
      Prescribes (.array wt) (.array rt) (.array vs) (.array vs')
  | map {wt rt es es'} (hne : wt ≠ rt) (h : PrescribesEntries wt rt es es') :
      Prescribes (.map wt) (.map rt) (.map es) (.map es')
  | fixed {wi wSize ri rSize bs} (hne : AvroType.fixed wi wSize ≠ .fixed ri rSize)
      (h : wi.avroFixedName = ri.avroFixedName ∧ wSize = rSize) :
      Prescribes (.fixed wi wSize) (.fixed ri rSize) (.fixed bs) (.fixed bs)
  | logicalWriter {base l r v v'} (hne : .logical base l ≠ r) (hr : ∀ rs, r ≠ .union rs) (h : Prescribes base r v v') :
      Prescribes (.logical base l) r v v'
  | logicalReader {w base l v v'} (hw : ∀ ws, w ≠ .union ws) (hl : ∀ t l, w ≠ .logical t l) (h : Prescribes w base v v') :
      Prescribes w (.logical base l) v v'

/-- The reader's fields in their order, each from the writer's field or its default. -/
inductive PrescribesFields : List AvroField → List Value → List AvroField → List Value → Prop
  | nil {wFields vs} : PrescribesFields wFields vs [] []
  | written {wFields vs rField rFields i wField v v' vs'} (hi : findFieldWithAliases wFields rField = some i)
      (hf : wFields[i]? = some wField) (hv : vs[i]? = some v) (h : Prescribes wField.type rField.type v v')
      (hrest : PrescribesFields wFields vs rFields vs') : PrescribesFields wFields vs (rField :: rFields) (v' :: vs')
  | missing {wFields vs rField rFields d v' vs'} (hi : findFieldWithAliases wFields rField = none)
      (hd : rField.info.avroFieldDefault = some d) (h : DefaultValue rField.type d v')
      (hrest : PrescribesFields wFields vs rFields vs') : PrescribesFields wFields vs (rField :: rFields) (v' :: vs')

inductive PrescribesItems : AvroType → AvroType → List Value → List Value → Prop
  | nil {wt rt} : PrescribesItems wt rt [] []
  | cons {wt rt v v' vs vs'} (h : Prescribes wt rt v v') (hrest : PrescribesItems wt rt vs vs') :
      PrescribesItems wt rt (v :: vs) (v' :: vs')

inductive PrescribesEntries : AvroType → AvroType → List (String × Value) → List (String × Value) → Prop
  | nil {wt rt} : PrescribesEntries wt rt [] []
  | cons {wt rt key v v' es es'} (h : Prescribes wt rt v v') (hrest : PrescribesEntries wt rt es es') :
      PrescribesEntries wt rt ((key, v) :: es) ((key, v') :: es')
end

/-! ## Prescribed values are the reader's -/

theorem forall₂_getElem? {α β : Type} {R : α → β → Prop} {xs : List α} {ys : List β} (h : List.Forall₂ R xs ys) {i : Nat}
    {x : α} (hx : xs[i]? = some x) : ∃ y, ys[i]? = some y ∧ R x y := by
  induction h generalizing i with
  | nil => cases hx
  | cons hxy _ ih =>
    cases i with
    | zero =>
      cases hx
      exact ⟨_, rfl, hxy⟩
    | succ i => exact ih hx

theorem Promotes.conforms {a b : AvroSchema} {v v' : Value} (h : Promotes a b v v') : ConformsPrimitive b v' := by
  cases h <;> trivial

theorem DefaultValue.conforms {t : AvroType} {d : AvroSchema} {v : Value} (h : DefaultValue t d v) : Conforms t v := by
  induction h with
  | @primitive d hd =>
    cases d with
    | schemaRef name => exact absurd rfl (hd name)
    | _ => trivial
  | logical _ ih => exact ih
  | union _ ih => exact ih

mutual
/-- **What the rules prescribe is a value of the reader's type.** -/
theorem Prescribes.conforms {w r : AvroType} {v v' : Value} (h : Prescribes w r v v') (hv : Conforms w v) :
    Conforms r v' := by
  cases h with
  | same => exact hv
  | primitive h => exact h.conforms
  | writerUnion _ hb h =>
    obtain ⟨b, hb', hu⟩ := conformsBranch_iff.1 hv
    rw [hb] at hb'
    cases hb'
    exact h.conforms hu
  | readerUnion _ _ hb h => exact conformsBranch_iff.2 ⟨_, hb, h.conforms hv⟩
  | record _ h => exact h.conforms hv
  | enum _ _ hj => exact (List.findIdx?_eq_some_iff_getElem.1 hj).1
  | array _ h => exact h.conforms hv
  | map _ h => exact h.conforms hv
  | fixed _ h => exact h.2 ▸ hv
  | logicalWriter _ _ h => exact h.conforms hv
  | logicalReader _ _ h => exact h.conforms hv

theorem PrescribesFields.conforms {wFields rFields : List AvroField} {vs vs' : List Value}
    (h : PrescribesFields wFields vs rFields vs') (hv : ConformsFields wFields vs) : ConformsFields rFields vs' := by
  cases h with
  | nil => trivial
  | written _ hf hv' h hrest =>
    obtain ⟨v, hv'', hconf⟩ := forall₂_getElem? (conformsFields_iff.1 hv) hf
    rw [hv'] at hv''
    cases hv''
    exact conformsFields_iff.2 (.cons (h.conforms hconf) (conformsFields_iff.1 (hrest.conforms hv)))
  | missing _ _ h hrest =>
    exact conformsFields_iff.2 (.cons h.conforms (conformsFields_iff.1 (hrest.conforms hv)))

theorem PrescribesItems.conforms {wt rt : AvroType} {vs vs' : List Value} (h : PrescribesItems wt rt vs vs')
    (hv : ∀ v ∈ vs, Conforms wt v) : ∀ v' ∈ vs', Conforms rt v' := by
  cases h with
  | nil => exact nofun
  | cons h hrest =>
    rw [List.forall_mem_cons] at hv ⊢
    exact ⟨h.conforms hv.1, hrest.conforms hv.2⟩

theorem PrescribesEntries.conforms {wt rt : AvroType} {es es' : List (String × Value)} (h : PrescribesEntries wt rt es es')
    (hv : ∀ e ∈ es, Conforms wt e.2) : ∀ e' ∈ es', Conforms rt e'.2 := by
  cases h with
  | nil => exact nofun
  | cons h hrest =>
    rw [List.forall_mem_cons] at hv ⊢
    exact ⟨h.conforms hv.1, hrest.conforms hv.2⟩
end

/-! ## Regular values -/

/-- A declared default of a primitive type of the field's own. -/
def PlainDefault : AvroType → AvroSchema → Prop
  | .primitive s, d => s = d ∧ ∀ name, d ≠ .schemaRef name
  | .logical base _, d => PlainDefault base d
  | _, _ => False

mutual
/-- A value on whose way to the reader no branch is tagged and every default fits. -/
inductive Regular : AvroType → AvroType → Value → Prop
  | same (t v) : Regular t t v
  | primitive {a b v} : Regular (.primitive a) (.primitive b) v
  | writerUnion {ws r i b u} (hb : ws[i]? = some b) (h : Regular b r u) : Regular (.union ws) r (.union i u)
  /-- a value that is tagged as it should be already, which only an annotated union can have -/
  | readerUnion {w rs v} (hw : ∀ ws, w ≠ .union ws) (h : Prescribes w (.union rs) v v) : Regular w (.union rs) v
  | record {wi wFields ri rFields vs} (h : RegularFields wFields vs rFields) :
      Regular (.record wi wFields) (.record ri rFields) (.record vs)
  | enum {wi wSyms ri rSyms v} : Regular (.enum wi wSyms) (.enum ri rSyms) v
  | array {wt rt vs} (h : RegularItems wt rt vs) : Regular (.array wt) (.array rt) (.array vs)
  | map {wt rt es} (h : RegularEntries wt rt es) : Regular (.map wt) (.map rt) (.map es)
  | fixed {wi wSize ri rSize v} : Regular (.fixed wi wSize) (.fixed ri rSize) v
  | logicalWriter {base l r v} (hr : ∀ rs, r ≠ .union rs) (h : Regular base r v) : Regular (.logical base l) r v
  | logicalReader {w base l v} (hw : ∀ ws, w ≠ .union ws) (hl : ∀ t l, w ≠ .logical t l) (h : Regular w base v) :
      Regular w (.logical base l) v

inductive RegularFields : List AvroField → List Value → List AvroField → Prop
  | nil {wFields vs} : RegularFields wFields vs []
  | written {wFields vs rField rFields i wField v} (hi : findFieldWithAliases wFields rField = some i)
      (hf : wFields[i]? = some wField) (hv : vs[i]? = some v) (h : Regular wField.type rField.type v)
      (hrest : RegularFields wFields vs rFields) : RegularFields wFields vs (rField :: rFields)
  | missing {wFields vs rField rFields d} (hi : findFieldWithAliases wFields rField = none)
      (hd : rField.info.avroFieldDefault = some d) (h : PlainDefault rField.type d)
      (hrest : RegularFields wFields vs rFields) : RegularFields wFields vs (rField :: rFields)

inductive RegularItems : AvroType → AvroType → List Value → Prop
  | nil {wt rt} : RegularItems wt rt []
  | cons {wt rt v vs} (h : Regular wt rt v) (hrest : RegularItems wt rt vs) : RegularItems wt rt (v :: vs)

inductive RegularEntries : AvroType → AvroType → List (String × Value) → Prop
  | nil {wt rt} : RegularEntries wt rt []
  | cons {wt rt key v es} (h : Regular wt rt v) (hrest : RegularEntries wt rt es) : RegularEntries wt rt ((key, v) :: es)
end

/-! ## Inversions -/

section
variable {w r base b wt rt : AvroType} {ws rs : List AvroType} {l : LogicalType} {i : Nat} {u v v' : Value}
  {vs : List Value}
  {es : List (String × Value)} {wi ri : RecordInfo} {wFields rFields : List AvroField}

theorem prescribes_union_iff (hne : .union ws ≠ r) (hb : ws[i]? = some b) :
    Prescribes (.union ws) r (.union i u) v' ↔ Prescribes b r u v' := by
  constructor
  · intro h
    cases h with
    | same => exact absurd rfl hne
    | writerUnion _ hb' h =>
      rw [hb] at hb'
      cases hb'
      exact h
    | readerUnion hw => exact absurd rfl (hw ws)
    | logicalReader hw => exact absurd rfl (hw ws)
  · intro h
    exact .writerUnion hne hb h

theorem regular_union_iff (hne : .union ws ≠ r) (hb : ws[i]? = some b) :
    Regular (.union ws) r (.union i u) ↔ Regular b r u := by
  constructor
  · intro h
    cases h with
    | same => exact absurd rfl hne
    | writerUnion hb' h =>
      rw [hb] at hb'
      cases hb'
      exact h
    | readerUnion hw => exact absurd rfl (hw ws)
    | logicalReader hw => exact absurd rfl (hw ws)
  · intro h
    exact .writerUnion hb h

theorem regular_into_union_iff (hw : ∀ ws, w ≠ .union ws) : Regular w (.union rs) v ↔ Prescribes w (.union rs) v v := by
  constructor
  · intro h
    cases h with
    | same => exact absurd rfl (hw rs)
    | writerUnion => exact absurd rfl (hw _)
    | readerUnion _ h => exact h
    | logicalWriter hr => exact absurd rfl (hr rs)
  · intro h
    exact .readerUnion hw h

theorem prescribes_record_iff (hne : AvroType.record wi wFields ≠ .record ri rFields) :
    Prescribes (.record wi wFields) (.record ri rFields) (.record vs) v' ↔
      ∃ vs', v' = .record vs' ∧ PrescribesFields wFields vs rFields vs' := by
  constructor
  · intro h
    cases h with
    | same => exact absurd rfl hne
    | record _ h => exact ⟨_, rfl, h⟩
  · rintro ⟨vs', rfl, h⟩
    exact .record hne h

theorem regular_record_iff (hne : AvroType.record wi wFields ≠ .record ri rFields) :
    Regular (.record wi wFields) (.record ri rFields) (.record vs) ↔ RegularFields wFields vs rFields := by
  constructor
  · intro h
    cases h with
    | same => exact absurd rfl hne
    | record h => exact h
  · intro h
    exact .record h

theorem prescribes_array_iff (hne : wt ≠ rt) :
    Prescribes (.array wt) (.array rt) (.array vs) v' ↔ ∃ vs', v' = .array vs' ∧ PrescribesItems wt rt vs vs' := by
  constructor
  · intro h
    cases h with
    | same => exact absurd rfl hne
    | array _ h => exact ⟨_, rfl, h⟩
  · rintro ⟨vs', rfl, h⟩
    exact .array hne h

theorem regular_array_iff (hne : wt ≠ rt) : Regular (.array wt) (.array rt) (.array vs) ↔ RegularItems wt rt vs := by
  constructor
  · intro h
    cases h with
    | same => exact absurd rfl hne
    | array h => exact h
  · intro h
    exact .array h

theorem prescribes_map_iff (hne : wt ≠ rt) :
    Prescribes (.map wt) (.map rt) (.map es) v' ↔ ∃ es', v' = .map es' ∧ PrescribesEntries wt rt es es' := by
  constructor
  · intro h
    cases h with
    | same => exact absurd rfl hne
    | map _ h => exact ⟨_, rfl, h⟩
  · rintro ⟨es', rfl, h⟩
    exact .map hne h

theorem regular_map_iff (hne : wt ≠ rt) : Regular (.map wt) (.map rt) (.map es) ↔ RegularEntries wt rt es := by
  constructor
  · intro h
    cases h with
    | same => exact absurd rfl hne
    | map h => exact h
  · intro h
    exact .map h

theorem prescribes_logical_iff (hne : .logical base l ≠ r) (hr : ∀ rs, r ≠ .union rs) :
    Prescribes (.logical base l) r v v' ↔ Prescribes base r v v' := by
  constructor
  · intro h
    cases h with
    | same => exact absurd rfl hne
    | readerUnion => exact absurd rfl (hr _)
    | logicalWriter _ _ h => exact h
    | logicalReader _ hl => exact absurd rfl (hl base l)
  · intro h
    exact .logicalWriter hne hr h

theorem regular_logical_iff (hne : .logical base l ≠ r) (hr : ∀ rs, r ≠ .union rs) :
    Regular (.logical base l) r v ↔ Regular base r v := by
  constructor
  · intro h
    cases h with
    | same => exact absurd rfl hne
    | readerUnion => exact absurd rfl (hr _)
    | logicalWriter _ h => exact h
    | logicalReader _ hl => exact absurd rfl (hl base l)
  · intro h
    exact .logicalWriter hr h

theorem prescribes_into_logical_iff (hw : ∀ ws, w ≠ .union ws) (hl : ∀ t l, w ≠ .logical t l) :
    Prescribes w (.logical base l) v v' ↔ Prescribes w base v v' := by
  constructor
  · intro h
    cases h with
    | same => exact absurd rfl (hl base l)
    | writerUnion => exact absurd rfl (hw _)
    | logicalWriter => exact absurd rfl (hl _ _)
    | logicalReader _ _ h => exact h
  · intro h
    exact .logicalReader hw hl h

theorem regular_into_logical_iff (hw : ∀ ws, w ≠ .union ws) (hl : ∀ t l, w ≠ .logical t l) :
    Regular w (.logical base l) v ↔ Regular w base v := by
  constructor
  · intro h
    cases h with
    | same => exact absurd rfl (hl base l)
    | writerUnion => exact absurd rfl (hw _)
    | logicalWriter => exact absurd rfl (hl _ _)
    | logicalReader _ _ h => exact h
  · intro h
    exact .logicalReader hw hl h

end

end Wireform.Avro

/-
  Avro schemas and values (`Avro.Schema`, `Avro.Value`).

  * `AvroType`, with decidable equality: two schemas are equal when all of their
    parts are, documentation and properties included;
  * `Value`; an index of an enum or a union is a natural number;
  * `Conforms`: the values of a type, those that its encoder writes.
-/
import Wireform.AssocMap
import Mathlib.Data.List.Forall2
import Mathlib.Data.String.Basic

namespace Wireform.Avro

/-! ## Schemas -/

inductive SortOrder where
  | ascending | descending | ignore
  deriving DecidableEq

inductive LogicalType where
  | decimal (precision scale : Int)
  | date | timeMillis | timeMicros | timestampMillis | timestampMicros | duration | uuid
  | custom (name : String)
  deriving DecidableEq

inductive AvroSchema where
  | null | bool | int | long | float | double | bytes | string
  /-- a named type -/
  | schemaRef (name : String)
  deriving DecidableEq

/-- Name, namespace, documentation, aliases and properties of a record. -/
structure RecordInfo where
  avroRecordName : String
  avroRecordNamespace : Option String
  avroRecordDoc : Option String
  avroRecordAliases : List String
  avroRecordProps : AssocMap String String
  deriving DecidableEq

structure EnumInfo where
  avroEnumName : String
  avroEnumNamespace : Option String
  avroEnumDoc : Option String
  avroEnumAliases : List String
  avroEnumDefault : Option String
  deriving DecidableEq

structure FixedInfo where
  avroFixedName : String
  avroFixedNamespace : Option String
  avroFixedAliases : List String
  deriving DecidableEq

/-- What a record field is besides its type. -/
structure FieldInfo where
  avroFieldName : String
  avroFieldDefault : Option AvroSchema
  avroFieldOrder : Option SortOrder
  avroFieldAliases : List String
  avroFieldDoc : Option String
  avroFieldProps : AssocMap String String
  deriving DecidableEq

mutual
inductive AvroType where
  | primitive (s : AvroSchema)
  | record (info : RecordInfo) (fields : List AvroField)
  | enum (info : EnumInfo) (symbols : List String)
  | array (items : AvroType)
  | map (values : AvroType)
  | union (branches : List AvroType)
  | fixed (info : FixedInfo) (size : Int)
  | logical (base : AvroType) (type : LogicalType)

inductive AvroField where
  | mk (info : FieldInfo) (type : AvroType)
end

def AvroField.info : AvroField → FieldInfo
  | mk info _ => info

def AvroField.type : AvroField → AvroType
  | mk _ type => type

mutual
/-- Two types are the same. -/
def AvroType.beq : AvroType → AvroType → Bool
  | .primitive s, .primitive s' => s = s'
  | .record i fs, .record i' fs' => i = i' && beqFields fs fs'
  | .enum i ss, .enum i' ss' => i = i' && ss = ss'
  | .array t, .array t' => t.beq t'
  | .map t, .map t' => t.beq t'
  | .union bs, .union bs' => beqTypes bs bs'
  | .fixed i n, .fixed i' n' => i = i' && n = n'
  | .logical t l, .logical t' l' => t.beq t' && l = l'
  | _, _ => false

def AvroField.beq : AvroField → AvroField → Bool
  | .mk i t, .mk i' t' => i = i' && t.beq t'

def beqFields : List AvroField → List AvroField → Bool
  | [], [] => true
  | f :: fs, f' :: fs' => f.beq f' && beqFields fs fs'
  | _, _ => false

def beqTypes : List AvroType → List AvroType → Bool
  | [], [] => true
  | t :: ts, t' :: ts' => t.beq t' && beqTypes ts ts'
  | _, _ => false
end

mutual
theorem AvroType.beq_iff (a b : AvroType) : a.beq b = true ↔ a = b := by
  cases a with
  | primitive s => cases b <;> simp [AvroType.beq]
  | record i fs => cases b <;> simp [AvroType.beq, beqFields_iff fs]
  | enum i ss => cases b <;> simp [AvroType.beq]
  | array t => cases b <;> simp [AvroType.beq, AvroType.beq_iff t]
  | map t => cases b <;> simp [AvroType.beq, AvroType.beq_iff t]
  | union bs => cases b <;> simp [AvroType.beq, beqTypes_iff bs]
  | fixed i n => cases b <;> simp [AvroType.beq]
  | logical t l => cases b <;> simp [AvroType.beq, AvroType.beq_iff t]
termination_by structural a

theorem AvroField.beq_iff (a b : AvroField) : a.beq b = true ↔ a = b := by
  obtain ⟨i, t⟩ := a
  obtain ⟨i', t'⟩ := b
  simp [AvroField.beq, AvroType.beq_iff t]
termination_by structural a

theorem beqFields_iff (as bs : List AvroField) : beqFields as bs = true ↔ as = bs := by
  cases as with
  | nil => cases bs <;> simp [beqFields]
  | cons a as => cases bs <;> simp [beqFields, AvroField.beq_iff a, beqFields_iff as]
termination_by structural as

theorem beqTypes_iff (as bs : List AvroType) : beqTypes as bs = true ↔ as = bs := by
  cases as with
  | nil => cases bs <;> simp [beqTypes]
  | cons a as => cases bs <;> simp [beqTypes, AvroType.beq_iff a, beqTypes_iff as]
termination_by structural as
end

instance : DecidableEq AvroType := fun a b => decidable_of_iff _ (AvroType.beq_iff a b)

/-! ## Values -/

inductive Value where
  | null
  | bool (b : Bool)
  | int (n : Int32)
  | long (n : Int64)
  | float (x : Float32)
  | double (x : Float)
  | bytes (bs : List UInt8)
  | string (s : String)
  | record (fields : List Value)
  | enum (idx : Nat)
  | array (items : List Value)
  | map (entries : List (String × Value))
  | union (idx : Nat) (v : Value)
  | fixed (bs : List UInt8)

def ConformsPrimitive : AvroSchema → Value → Prop
  | .null, .null | .bool, .bool _ | .int, .int _ | .long, .long _ | .float, .float _ | .double, .double _
  | .bytes, .bytes _ | .string, .string _ => True
  | _, _ => False

mutual
/-- A value of the type. -/
def Conforms : AvroType → Value → Prop
  | .primitive s, v => ConformsPrimitive s v
  | .record _ fields, .record vs => ConformsFields fields vs
  | .enum _ symbols, .enum idx => idx < symbols.length
  | .array items, .array vs => ∀ v ∈ vs, Conforms items v
  | .map values, .map es => ∀ e ∈ es, Conforms values e.2
  | .union branches, .union idx v => ConformsBranch branches idx v
  | .fixed _ size, .fixed bs => (bs.length : Int) = size
  | .logical base _, v => Conforms base v
  | _, _ => False

def ConformsFields : List AvroField → List Value → Prop
  | [], [] => True
  | .mk _ t :: fields, v :: vs => Conforms t v ∧ ConformsFields fields vs
  | _, _ => False

def ConformsBranch : List AvroType → Nat → Value → Prop
  | t :: _, 0, v => Conforms t v
  | _ :: ts, idx + 1, v => ConformsBranch ts idx v
  | [], _, _ => False
end

theorem conformsFields_iff {fields : List AvroField} {vs : List Value} :
    ConformsFields fields vs ↔ List.Forall₂ (fun f v => Conforms f.type v) fields vs := by
  induction fields generalizing vs with
  | nil => cases vs <;> simp [ConformsFields]
  | cons f fields ih =>
    obtain ⟨i, t⟩ := f
    cases vs <;> simp [ConformsFields, ih, AvroField.type]

theorem conformsBranch_iff {branches : List AvroType} {idx : Nat} {v : Value} :
    ConformsBranch branches idx v ↔ ∃ b, branches[idx]? = some b ∧ Conforms b v := by
  induction branches generalizing idx with
  | nil => simp [ConformsBranch]
  | cons b branches ih => cases idx <;> simp [ConformsBranch, ih]

end Wireform.Avro

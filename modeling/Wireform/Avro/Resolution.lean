/-
  Avro schema resolution (`Avro.Resolution`).

  * `resolveSchema`: a plan for two schemas, by recursion over both;
  * `resolveValue`: the plan carried out on a value of the writer.

  The traversals of branches and fields are recursions over lists here.
-/
import Wireform.Avro.Schema

namespace Wireform.Avro

/-! ## Plans -/

mutual
/-- How to make a reader's value of a writer's. -/
inductive ResolvedSchema where
  | same
  | promoteIntToLong | promoteIntToFloat | promoteIntToDouble | promoteLongToFloat | promoteLongToDouble | promoteFloatToDouble
  | record (fields : List FieldResolution)
  | enum (name : String) (mapping : List Nat)
  | array (res : ResolvedSchema)
  | map (res : ResolvedSchema)
  | union (resolutions : List ResolvedSchema)

inductive FieldResolution where
  | fromWriter (idx : Nat) (res : ResolvedSchema)
  | default (v : Value)
end

/-! ## Names -/

def AvroSchema.show : AvroSchema → String
  | .null => "AvroNull"
  | .bool => "AvroBool"
  | .int => "AvroInt"
  | .long => "AvroLong"
  | .float => "AvroFloat"
  | .double => "AvroDouble"
  | .bytes => "AvroBytes"
  | .string => "AvroString"
  | .schemaRef name => "AvroSchemaRef " ++ name.quote

def showType : AvroType → String
  | .primitive s => s.show
  | .record i _ => "record<" ++ i.avroRecordName ++ ">"
  | .enum i _ => "enum<" ++ i.avroEnumName ++ ">"
  | .array _ => "array"
  | .map _ => "map"
  | .union _ => "union"
  | .fixed i _ => "fixed<" ++ i.avroFixedName ++ ">"
  | .logical _ _ => "logical"

/-! ## Resolution of schemas -/

def resolvePrim : AvroSchema → AvroSchema → Except String ResolvedSchema
  | .int, .long => .ok .promoteIntToLong
  | .int, .float => .ok .promoteIntToFloat
  | .int, .double => .ok .promoteIntToDouble
  | .long, .float => .ok .promoteLongToFloat
  | .long, .double => .ok .promoteLongToDouble
  | .float, .double => .ok .promoteFloatToDouble
  | w, r => if w = r then .ok .same else .error ("incompatible primitives: " ++ w.show ++ " vs " ++ r.show)

/-- A writer's field by the reader's name, by an alias of the reader's, or by an
    alias of its own. -/
def findFieldWithAliases (wFields : List AvroField) (rField : AvroField) : Option Nat :=
  match wFields.findIdx? fun f => f.info.avroFieldName = rField.info.avroFieldName with
  | some idx => some idx
  | none =>
    match wFields.findIdx? fun f => f.info.avroFieldName ∈ rField.info.avroFieldAliases with
    | some idx => some idx
    | none => wFields.findIdx? fun f => rField.info.avroFieldName ∈ f.info.avroFieldAliases

def defaultToValue (_ : AvroType) : AvroSchema → Value
  | .null => .null
  | .bool => .bool false
  | .int => .int 0
  | .long => .long 0
  | .float => .float 0
  | .double => .double 0
  | .bytes => .bytes []
  | .string => .string ""
  | .schemaRef _ => .null

def resolveEnums (wSyms : List String) (rName : String) (rSyms : List String) : Except String ResolvedSchema := do
  let mapping ← wSyms.mapM fun sym =>
    match rSyms.findIdx? fun s => s = sym with
    | some ri => .ok ri
    | none => .error ("writer enum symbol '" ++ sym ++ "' not in reader enum '" ++ rName ++ "'")
  return .enum rName mapping

def resolveFixed (w : FixedInfo) (wSize : Int) (r : FixedInfo) (rSize : Int) : Except String ResolvedSchema :=
  if w.avroFixedName = r.avroFixedName ∧ wSize = rSize then .ok .same
  else if w.avroFixedName ≠ r.avroFixedName then
    .error ("fixed name mismatch: " ++ w.avroFixedName ++ " vs " ++ r.avroFixedName)
  else .error ("fixed size mismatch for " ++ w.avroFixedName ++ ": " ++ toString wSize ++ " vs " ++ toString rSize)

theorem AvroField.sizeOf_type_lt (f : AvroField) : sizeOf f.type < sizeOf f := by
  obtain ⟨i, t⟩ := f
  simp only [AvroField.type, AvroField.mk.sizeOf_spec]
  omega

theorem sizeOf_field_lt {fields : List AvroField} {idx : Nat} {f : AvroField} (h : fields[idx]? = some f) :
    sizeOf f.type < sizeOf fields :=
  f.sizeOf_type_lt.trans (List.sizeOf_lt_of_mem (List.mem_of_getElem? h))

mutual
def resolveSchema (w r : AvroType) : Except String ResolvedSchema :=
  if w = r then .ok .same else resolve w r
termination_by (sizeOf w + sizeOf r, 1)

def resolve (w r : AvroType) : Except String ResolvedSchema :=
  match w, r with
  | .primitive w, .primitive r => resolvePrim w r
  | .union wBranches, readerTy => .union <$> resolveWriterUnion wBranches readerTy
  | writerTy, .union rBranches =>
    match findFirstMatch writerTy rBranches 0 with
    | some _ => .ok .same
    | none => .error ("writer type " ++ showType writerTy ++ " does not match any reader union branch")
  | .record _ wFields, .record _ rFields => .record <$> resolveRecords wFields rFields
  | .enum _ wSyms, .enum r rSyms => resolveEnums wSyms r.avroEnumName rSyms
  | .array wItems, .array rItems => .array <$> resolveSchema wItems rItems
  | .map wVals, .map rVals => .map <$> resolveSchema wVals rVals
  | .fixed w wSize, .fixed r rSize => resolveFixed w wSize r rSize
  | .logical wBase _, r => resolveSchema wBase r
  | w, .logical rBase _ => resolveSchema w rBase
  | w, r => .error ("incompatible types: writer " ++ showType w ++ " vs reader " ++ showType r)
termination_by (sizeOf w + sizeOf r, 0)

def resolveWriterUnion (wBranches : List AvroType) (readerTy : AvroType) : Except String (List ResolvedSchema) :=
  match wBranches with
  | [] => .ok []
  | wb :: wBranches => do
    let res ← resolveSchema wb readerTy
    let resolutions ← resolveWriterUnion wBranches readerTy
    return res :: resolutions
termination_by (sizeOf wBranches + sizeOf readerTy, 0)

def findFirstMatch (wt : AvroType) (branches : List AvroType) (idx : Nat) : Option Nat :=
  match branches with
  | [] => none
  | b :: branches =>
    match resolveSchema wt b with
    | .ok _ => some idx
    | .error _ => findFirstMatch wt branches (idx + 1)
termination_by (sizeOf wt + sizeOf branches, 0)

def resolveRecords (wFields rFields : List AvroField) : Except String (List FieldResolution) :=
  match rFields with
  | [] => .ok []
  | rField :: rFields => do
    let res ← resolveOneField wFields rField
    let resolutions ← resolveRecords wFields rFields
    return res :: resolutions
termination_by (sizeOf wFields + sizeOf rFields, 0)

def resolveOneField (wFields : List AvroField) (rField : AvroField) : Except String FieldResolution :=
  match findFieldWithAliases wFields rField with
  | some wIdx =>
    match _h : wFields[wIdx]? with
    | some wField => .fromWriter wIdx <$> resolveSchema wField.type rField.type
    | none => .error "index out of bounds"
  | none =>
    match rField.info.avroFieldDefault with
    | some dflt => .ok (.default (defaultToValue rField.type dflt))
    | none => .error ("reader field '" ++ rField.info.avroFieldName ++ "' not in writer and has no default")
termination_by (sizeOf wFields + sizeOf rField, 0)
decreasing_by
  have hw := sizeOf_field_lt _h
  have hr := rField.sizeOf_type_lt
  exact Prod.Lex.left _ _ (by omega)
end

/-! ## Resolution of values -/

mutual
def resolveValue : ResolvedSchema → Value → Except String Value
  | .same, v => .ok v
  | .promoteIntToLong, .int n => .ok (.long n.toInt64)
  | .promoteIntToFloat, .int n => .ok (.float n.toFloat32)
  | .promoteIntToDouble, .int n => .ok (.double n.toFloat)
  | .promoteLongToFloat, .long n => .ok (.float n.toFloat32)
  | .promoteLongToDouble, .long n => .ok (.double n.toFloat)
  | .promoteFloatToDouble, .float x => .ok (.double x.toFloat)
  | .record fieldRes, .record wFields => .record <$> resolveFields wFields fieldRes
  | .enum name mapping, .enum wIdx =>
    match mapping[wIdx]? with
    | some idx => .ok (.enum idx)
    | none => .error ("enum '" ++ name ++ "': writer index out of range")
  | .array res, .array items => .array <$> items.mapM (resolveValue res)
  | .map res, .map entries => .map <$> entries.mapM fun e => (fun v => (e.1, v)) <$> resolveValue res e.2
  | .union resolutions, .union wIdx val => resolveBranch resolutions wIdx val
  | _, _ => .error "resolution/value mismatch"

def resolveField (wFields : List Value) : FieldResolution → Except String Value
  | .fromWriter idx res =>
    match wFields[idx]? with
    | some v => resolveValue res v
    | none => .error "field index out of range in writer record"
  | .default val => .ok val

def resolveFields (wFields : List Value) : List FieldResolution → Except String (List Value)
  | [] => .ok []
  | res :: fieldRes => do
    let v ← resolveField wFields res
    let vs ← resolveFields wFields fieldRes
    return v :: vs

def resolveBranch : List ResolvedSchema → Nat → Value → Except String Value
  | res :: _, 0, val => resolveValue res val
  | _ :: resolutions, wIdx + 1, val => resolveBranch resolutions wIdx val
  | [], _, _ => .error "union: writer branch index out of range"
end

attribute [grind =] resolveSchema resolveValue

end Wireform.Avro

/-
  Schema compatibility checking (`Proto.Compat`).

  A check compares the messages and enums of two files by their names and
  collects errors and warnings; `isCompatible` is the verdict.

  * `isCompatible_iff`: the verdict is green exactly when none of the rules that
    raise an error applies (`Reported`).
-/
import Mathlib.Data.String.Basic
import Wireform.AssocMap
import Wireform.Proto.Idl.Ast

namespace Wireform.Proto.Compat

open AssocMap Idl

variable {X : Type}

/-! ## Results -/

inductive Severity where
  | warning | error
  deriving DecidableEq, Repr

/-- A compatibility issue, with the path of what it is about and the rule that
    raised it. -/
structure CompatError where
  ceMessage : String
  cePath : String
  ceSeverity : Severity
  ceRule : String
  deriving DecidableEq, Repr

abbrev CompatResult := List CompatError

/-- The result contains no errors; warnings are allowed. -/
def isCompatible (r : CompatResult) : Bool := !r.any fun e => e.ceSeverity = .error

def makeError (msg path : String) (sev : Severity) (rule : String) : CompatResult :=
  [⟨msg, path, sev, rule⟩]

def makeWarning (msg path rule : String) : CompatResult := [⟨msg, path, .warning, rule⟩]

/-- The direction of a check. -/
inductive Direction where
  | backwardDir | forwardDir
  deriving DecidableEq, Repr

def dirLabel : Direction → String
  | .backwardDir => "BACKWARD"
  | .forwardDir => "FORWARD"

/-! ## Wire compatibility -/

inductive WireGroup where
  | wgVarint | wg64Bit | wg32Bit | wgLenDelim
  deriving DecidableEq, Repr

/-- The wire group of a field type; every named type counts as a message. -/
def wireType : FieldType → WireGroup
  | .ftScalar .sDouble => .wg64Bit
  | .ftScalar .sFloat => .wg32Bit
  | .ftScalar .sInt32 => .wgVarint
  | .ftScalar .sInt64 => .wgVarint
  | .ftScalar .sUInt32 => .wgVarint
  | .ftScalar .sUInt64 => .wgVarint
  | .ftScalar .sSInt32 => .wgVarint
  | .ftScalar .sSInt64 => .wgVarint
  | .ftScalar .sFixed32 => .wg32Bit
  | .ftScalar .sFixed64 => .wg64Bit
  | .ftScalar .sSFixed32 => .wg32Bit
  | .ftScalar .sSFixed64 => .wg64Bit
  | .ftScalar .sBool => .wgVarint
  | .ftScalar .sString => .wgLenDelim
  | .ftScalar .sBytes => .wgLenDelim
  | .ftNamed _ => .wgLenDelim

def wireCompatible (a b : FieldType) : Bool := wireType a = wireType b

def showScalar : ScalarType → String
  | .sDouble => "double"
  | .sFloat => "float"
  | .sInt32 => "int32"
  | .sInt64 => "int64"
  | .sUInt32 => "uint32"
  | .sUInt64 => "uint64"
  | .sSInt32 => "sint32"
  | .sSInt64 => "sint64"
  | .sFixed32 => "fixed32"
  | .sFixed64 => "fixed64"
  | .sSFixed32 => "sfixed32"
  | .sSFixed64 => "sfixed64"
  | .sBool => "bool"
  | .sString => "string"
  | .sBytes => "bytes"

def showFieldType : FieldType → String
  | .ftScalar s => showScalar s
  | .ftNamed n => n

/-! ## Fields -/

/-- The fields of a message by number; of two with one number the later
    counts. -/
def fieldMap (msg : MessageDef X) : AssocMap Int (FieldDef X) :=
  fromList ((messageFields msg).map fun fd => (fd.fieldNumber, fd))

/-- A number is in a reserved range. -/
def inRange (num : Int) : ReservedRange → Bool
  | .reservedSingle n => num = n
  | .reservedRange lo hi => lo ≤ num && num ≤ hi

/-- The set of reserved numbers of a message, by its members. -/
def reservedNumbers (msg : MessageDef X) (num : Int) : Bool :=
  msg.msgElements.any fun
    | .meReserved (.reservedNumbers ranges) => ranges.any (inRange num)
    | _ => false

/-- Check the compatibility of a single field. -/
def checkFieldCompat (dir : Direction) (msgPath : String) (newFd oldFd : FieldDef X) : CompatResult :=
  let path := msgPath ++ "." ++ newFd.fieldName
  (if newFd.fieldType ≠ oldFd.fieldType then
    if wireCompatible newFd.fieldType oldFd.fieldType then
      makeWarning (dirLabel dir ++ ": field '" ++ newFd.fieldName ++ "' type changed from " ++
        showFieldType oldFd.fieldType ++ " to " ++ showFieldType newFd.fieldType ++
        " (wire-compatible)") path "FIELD_TYPE_CHANGED_COMPATIBLE"
    else
      makeError (dirLabel dir ++ ": field '" ++ newFd.fieldName ++ "' type changed from " ++
        showFieldType oldFd.fieldType ++ " to " ++ showFieldType newFd.fieldType ++
        " (wire-INCOMPATIBLE)") path .error "FIELD_TYPE_CHANGED_INCOMPATIBLE"
  else []) ++
  match oldFd.fieldLabel, newFd.fieldLabel with
  | some .required, some .optional =>
    match dir with
    | .backwardDir => []
    | .forwardDir =>
      makeError (dirLabel dir ++ ": field '" ++ newFd.fieldName ++
        "' changed from required to optional") path .error "REQUIRED_TO_OPTIONAL"
  | some .optional, some .required =>
    makeError (dirLabel dir ++ ": field '" ++ newFd.fieldName ++
      "' changed from optional to required") path .error "OPTIONAL_TO_REQUIRED"
  | none, some .required =>
    makeError (dirLabel dir ++ ": field '" ++ newFd.fieldName ++ "' changed to required") path .error
      "BECAME_REQUIRED"
  | _, _ => []

/-! ## Messages -/

/-- The entries of `m` whose keys `m'` does not have (`Map.difference`). -/
def difference {κ β γ : Type} [LinearOrder κ] (m : AssocMap κ β) (m' : AssocMap κ γ) : AssocMap κ β :=
  m.filter fun e => (lookup e.1 m').isNone

/-- Check the entries of `m` whose keys `m'` has, in the order of `m`. -/
def forBoth {κ β γ : Type} [LinearOrder κ] (m : AssocMap κ β) (m' : AssocMap κ γ)
    (f : κ → β → γ → CompatResult) : CompatResult :=
  m.flatMap fun e =>
    match lookup e.1 m' with
    | none => []
    | some v => f e.1 e.2 v

/-- The rule for a field that was removed. -/
def removedField (dir : Direction) (msgPath : String) (newMsg : MessageDef X) (num : Int)
    (oldFd : FieldDef X) : CompatResult :=
  let path := msgPath ++ "." ++ oldFd.fieldName
  match dir with
  | .backwardDir =>
    if reservedNumbers newMsg num then []
    else
      makeError (dirLabel dir ++ ": field '" ++ oldFd.fieldName ++ "' (number " ++ toString num ++
        ") removed without reserving the number") path .error "FIELD_REMOVED_NOT_RESERVED" ++
      match oldFd.fieldLabel with
      | some .required =>
        makeError (dirLabel dir ++ ": required field '" ++ oldFd.fieldName ++ "' removed") path .error
          "REQUIRED_FIELD_REMOVED"
      | _ => []
  | .forwardDir => []

/-- The rule for a field that was added. -/
def addedField (dir : Direction) (msgPath : String) (newFd : FieldDef X) : CompatResult :=
  match dir with
  | .backwardDir =>
    match newFd.fieldLabel with
    | some .required =>
      makeError (dirLabel dir ++ ": required field '" ++ newFd.fieldName ++ "' added")
        (msgPath ++ "." ++ newFd.fieldName) .error "REQUIRED_FIELD_ADDED"
    | _ => []
  | .forwardDir => []

/-- The rule for a field number under another name. -/
def renamedField (dir : Direction) (msgPath : String) (newMsg : MessageDef X) (num : Int)
    (newFd oldFd : FieldDef X) : CompatResult :=
  if newFd.fieldName ≠ oldFd.fieldName && !reservedNumbers newMsg num then
    makeWarning (dirLabel dir ++ ": field number " ++ toString num ++ " changed name from '" ++
      oldFd.fieldName ++ "' to '" ++ newFd.fieldName ++ "'") (msgPath ++ "." ++ newFd.fieldName)
      "FIELD_NAME_CHANGED"
  else []

/-- Check the compatibility of two versions of a message. -/
def checkMessageCompat (dir : Direction) (msgPath : String) (newMsg oldMsg : MessageDef X) :
    CompatResult :=
  let newFields := fieldMap newMsg
  let oldFields := fieldMap oldMsg
  ((difference oldFields newFields).flatMap fun e => removedField dir msgPath newMsg e.1 e.2) ++
  ((difference newFields oldFields).flatMap fun e => addedField dir msgPath e.2) ++
  (forBoth newFields oldFields fun _ newFd oldFd => checkFieldCompat dir msgPath newFd oldFd) ++
  forBoth newFields oldFields fun num newFd oldFd => renamedField dir msgPath newMsg num newFd oldFd

/-- The messages of a file by name; of two with one name the later counts. -/
def messageMap (pf : ProtoFile X) : AssocMap String (MessageDef X) :=
  fromList ((allMessages pf).map fun m => (m.msgName, m))

def checkMessages (dir : Direction) (new old : ProtoFile X) : CompatResult :=
  let newMsgs := messageMap new
  let oldMsgs := messageMap old
  ((difference oldMsgs newMsgs).flatMap fun e =>
    match dir with
    | .backwardDir => []
    | .forwardDir =>
      makeError (dirLabel dir ++ ": message '" ++ e.1 ++ "' was removed") e.1 .error
        "MESSAGE_REMOVED") ++
  forBoth newMsgs oldMsgs fun name newMsg oldMsg => checkMessageCompat dir name newMsg oldMsg

/-! ## Enums -/

/-- The names of the values of an enum by number. -/
def valueMap (ed : EnumDef X) : AssocMap Int String :=
  fromList (ed.enumValues.map fun v => (v.evNumber, v.evName))

/-- Check the compatibility of two versions of an enum. -/
def checkEnumCompat (dir : Direction) (enumPath : String) (newEnum oldEnum : EnumDef X) :
    CompatResult :=
  let newVals := valueMap newEnum
  let oldVals := valueMap oldEnum
  ((difference oldVals newVals).flatMap fun e =>
    match dir with
    | .backwardDir =>
      makeError (dirLabel dir ++ ": enum value '" ++ e.2 ++ "' (number " ++ toString e.1 ++
        ") removed") (enumPath ++ "." ++ e.2) .error "ENUM_VALUE_REMOVED"
    | .forwardDir => []) ++
  ((difference newVals oldVals).flatMap fun e =>
    match dir with
    | .forwardDir =>
      makeWarning (dirLabel dir ++ ": enum value '" ++ e.2 ++ "' (number " ++ toString e.1 ++
        ") added; old readers will see the numeric value") (enumPath ++ "." ++ e.2)
        "ENUM_VALUE_ADDED"
    | .backwardDir => []) ++
  forBoth newVals oldVals fun num newName oldName =>
    if newName ≠ oldName then
      makeWarning (dirLabel dir ++ ": enum value at number " ++ toString num ++ " renamed from '" ++
        oldName ++ "' to '" ++ newName ++ "' (breaks JSON compatibility)") (enumPath ++ "." ++ newName)
        "ENUM_VALUE_RENAMED"
    else []

def enumMap (pf : ProtoFile X) : AssocMap String (EnumDef X) :=
  fromList ((allEnums pf).map fun e => (e.enumName, e))

def checkEnums (dir : Direction) (new old : ProtoFile X) : CompatResult :=
  forBoth (enumMap new) (enumMap old) fun name newEnum oldEnum =>
    checkEnumCompat dir name newEnum oldEnum

/-! ## Files -/

/-- Check two versions of a file in one direction. -/
def check (dir : Direction) (new old : ProtoFile X) : CompatResult :=
  checkMessages dir new old ++ checkEnums dir new old

/-- Can the new schema read data written by the old schema? -/
def checkBackward (new old : ProtoFile X) : CompatResult := check .backwardDir new old

/-- Can the old schema read data written by the new schema? -/
def checkForward (new old : ProtoFile X) : CompatResult := check .forwardDir new old

def checkFull (new old : ProtoFile X) : CompatResult := checkBackward new old ++ checkForward new old

/-! ## The rules -/

/-- A rule for one field raises an error. -/
inductive FieldReported (dir : Direction) (newFd oldFd : FieldDef X) : Prop where
  | wireChanged : wireType newFd.fieldType ≠ wireType oldFd.fieldType →
      FieldReported dir newFd oldFd
  | requiredToOptional : dir = .forwardDir → oldFd.fieldLabel = some .required →
      newFd.fieldLabel = some .optional → FieldReported dir newFd oldFd
  | becameRequired : oldFd.fieldLabel = some .optional ∨ oldFd.fieldLabel = none →
      newFd.fieldLabel = some .required → FieldReported dir newFd oldFd

/-- A rule for one message raises an error. -/
inductive MessageReported (dir : Direction) (newMsg oldMsg : MessageDef X) : Prop where
  | removed {num : Int} {oldFd : FieldDef X} : dir = .backwardDir →
      lookup num (fieldMap oldMsg) = some oldFd → lookup num (fieldMap newMsg) = none →
      reservedNumbers newMsg num = false → MessageReported dir newMsg oldMsg
  | requiredAdded {num : Int} {newFd : FieldDef X} : dir = .backwardDir →
      lookup num (fieldMap newMsg) = some newFd → lookup num (fieldMap oldMsg) = none →
      newFd.fieldLabel = some .required → MessageReported dir newMsg oldMsg
  | field {num : Int} {newFd oldFd : FieldDef X} : lookup num (fieldMap newMsg) = some newFd →
      lookup num (fieldMap oldMsg) = some oldFd → FieldReported dir newFd oldFd →
      MessageReported dir newMsg oldMsg

/-- A rule raises an error for two versions of a file. -/
inductive Reported (dir : Direction) (new old : ProtoFile X) : Prop where
  | messageRemoved {name : String} {oldMsg : MessageDef X} : dir = .forwardDir →
      lookup name (messageMap old) = some oldMsg → lookup name (messageMap new) = none →
      Reported dir new old
  | message {name : String} {newMsg oldMsg : MessageDef X} :
      lookup name (messageMap new) = some newMsg → lookup name (messageMap old) = some oldMsg →
      MessageReported dir newMsg oldMsg → Reported dir new old
  | enumValueRemoved {name valueName : String} {num : Int} {newEnum oldEnum : EnumDef X} :
      dir = .backwardDir → lookup name (enumMap new) = some newEnum →
      lookup name (enumMap old) = some oldEnum → lookup num (valueMap oldEnum) = some valueName →
      lookup num (valueMap newEnum) = none → Reported dir new old

/-- The result holds an error. -/
def HasError (r : CompatResult) : Prop := ∃ e ∈ r, e.ceSeverity = .error

@[simp] theorem not_hasError_nil : ¬ HasError [] := by simp [HasError]

@[simp] theorem hasError_makeError (msg path rule : String) :
    HasError (makeError msg path .error rule) := by simp [HasError, makeError]

@[simp] theorem not_hasError_makeWarning (msg path rule : String) :
    ¬ HasError (makeWarning msg path rule) := by simp [HasError, makeWarning]

@[simp] theorem hasError_append (r r' : CompatResult) :
    HasError (r ++ r') ↔ HasError r ∨ HasError r' := by
  simp only [HasError, List.mem_append, or_and_right, exists_or]

theorem hasError_flatMap {α : Type} (xs : List α) (f : α → CompatResult) :
    HasError (xs.flatMap f) ↔ ∃ x ∈ xs, HasError (f x) := by
  simp only [HasError, List.mem_flatMap]
  constructor
  · rintro ⟨e, ⟨x, hx, he⟩, hs⟩
    exact ⟨x, hx, e, he, hs⟩
  · rintro ⟨x, hx, e, he, hs⟩
    exact ⟨e, ⟨x, hx, he⟩, hs⟩

theorem isCompatible_eq (r : CompatResult) : isCompatible r = true ↔ ¬ HasError r := by
  simp [isCompatible, HasError]

section

variable {κ β γ : Type} [LinearOrder κ] {m : AssocMap κ β} {m' : AssocMap κ γ}

/-- The check of an entry on both sides. -/
theorem hasError_forBoth (h : Ascending m) (f : κ → β → γ → CompatResult) :
    HasError (forBoth m m' f) ↔
      ∃ k b c, lookup k m = some b ∧ lookup k m' = some c ∧ HasError (f k b c) := by
  rw [forBoth, hasError_flatMap]
  constructor
  · rintro ⟨⟨k, b⟩, hmem, he⟩
    cases hc : lookup k m' with
    | none => simp [hc] at he
    | some c =>
      simp only [hc] at he
      exact ⟨k, b, c, (h.mem_iff k b).1 hmem, hc, he⟩
  · rintro ⟨k, b, c, hb, hc, he⟩
    refine ⟨(k, b), (h.mem_iff k b).2 hb, ?_⟩
    simp only [hc]
    exact he

/-- The check of an entry on one side only. -/
theorem hasError_difference (h : Ascending m) (f : κ × β → CompatResult) :
    HasError ((difference m m').flatMap f) ↔
      ∃ k b, lookup k m = some b ∧ lookup k m' = none ∧ HasError (f (k, b)) := by
  rw [hasError_flatMap]
  simp only [difference, List.mem_filter, Option.isNone_iff_eq_none, Prod.exists, h.mem_iff,
    and_assoc]

end

theorem hasError_checkFieldCompat (dir : Direction) (msgPath : String) (newFd oldFd : FieldDef X) :
    HasError (checkFieldCompat dir msgPath newFd oldFd) ↔ FieldReported dir newFd oldFd := by
  have htype : HasError (if newFd.fieldType ≠ oldFd.fieldType then
      if wireCompatible newFd.fieldType oldFd.fieldType then
        makeWarning (dirLabel dir ++ ": field '" ++ newFd.fieldName ++ "' type changed from " ++
          showFieldType oldFd.fieldType ++ " to " ++ showFieldType newFd.fieldType ++
          " (wire-compatible)") (msgPath ++ "." ++ newFd.fieldName) "FIELD_TYPE_CHANGED_COMPATIBLE"
      else
        makeError (dirLabel dir ++ ": field '" ++ newFd.fieldName ++ "' type changed from " ++
          showFieldType oldFd.fieldType ++ " to " ++ showFieldType newFd.fieldType ++
          " (wire-INCOMPATIBLE)") (msgPath ++ "." ++ newFd.fieldName) .error
          "FIELD_TYPE_CHANGED_INCOMPATIBLE"
      else []) ↔ wireType newFd.fieldType ≠ wireType oldFd.fieldType := by
    split
    · split
      · rename_i hc
        simpa [wireCompatible] using hc
      · rename_i hc
        simpa [wireCompatible] using hc
    · rename_i heq
      rw [not_not.1 heq]
      simp
  unfold checkFieldCompat
  rw [hasError_append, htype]
  constructor
  · rintro (h | h)
    · exact .wireChanged h
    · split at h
      · rename_i ho hn
        cases dir
        · simp at h
        · exact .requiredToOptional rfl ho hn
      · rename_i ho hn
        exact .becameRequired (Or.inl ho) hn
      · rename_i ho hn
        exact .becameRequired (Or.inr ho) hn
      · simp at h
  · rintro (h | ⟨rfl, ho, hn⟩ | ⟨ho | ho, hn⟩)
    · exact Or.inl h
    · rw [ho, hn]; simp
    · rw [ho, hn]; simp
    · rw [ho, hn]; simp

theorem hasError_removedField (dir : Direction) (msgPath : String) (newMsg : MessageDef X) (num : Int)
    (oldFd : FieldDef X) : HasError (removedField dir msgPath newMsg num oldFd) ↔
      dir = .backwardDir ∧ reservedNumbers newMsg num = false := by
  unfold removedField
  cases dir with
  | backwardDir => cases reservedNumbers newMsg num <;> simp
  | forwardDir => simp

theorem hasError_addedField (dir : Direction) (msgPath : String) (newFd : FieldDef X) :
    HasError (addedField dir msgPath newFd) ↔
      dir = .backwardDir ∧ newFd.fieldLabel = some .required := by
  unfold addedField
  cases dir with
  | backwardDir =>
    cases newFd.fieldLabel with
    | none => simp
    | some l => cases l <;> simp
  | forwardDir => simp

theorem hasError_checkMessageCompat (dir : Direction) (msgPath : String)
    (newMsg oldMsg : MessageDef X) :
    HasError (checkMessageCompat dir msgPath newMsg oldMsg) ↔ MessageReported dir newMsg oldMsg := by
  have hn : Ascending (fieldMap newMsg) := ascending_fromList _
  have ho : Ascending (fieldMap oldMsg) := ascending_fromList _
  have hrename : ¬ HasError (forBoth (fieldMap newMsg) (fieldMap oldMsg) fun num newFd oldFd =>
      renamedField dir msgPath newMsg num newFd oldFd) := by
    rw [hasError_forBoth hn]
    rintro ⟨num, newFd, oldFd, -, -, h⟩
    unfold renamedField at h
    split at h <;> simp at h
  unfold checkMessageCompat
  simp only [hasError_append, hrename, or_false]
  rw [hasError_difference ho, hasError_difference hn, hasError_forBoth hn]
  constructor
  · rintro ((⟨num, oldFd, h1, h2, h⟩ | ⟨num, newFd, h1, h2, h⟩) | ⟨num, newFd, oldFd, h1, h2, h⟩)
    · obtain ⟨hd, hr⟩ := (hasError_removedField dir msgPath newMsg num oldFd).1 h
      exact .removed hd h1 h2 hr
    · obtain ⟨hd, hr⟩ := (hasError_addedField dir msgPath newFd).1 h
      exact .requiredAdded hd h1 h2 hr
    · exact .field h1 h2 ((hasError_checkFieldCompat dir msgPath newFd oldFd).1 h)
  · rintro (⟨hd, h1, h2, hr⟩ | ⟨hd, h1, h2, hr⟩ | ⟨h1, h2, h⟩)
    · exact Or.inl (Or.inl ⟨_, _, h1, h2, (hasError_removedField ..).2 ⟨hd, hr⟩⟩)
    · exact Or.inl (Or.inr ⟨_, _, h1, h2, (hasError_addedField ..).2 ⟨hd, hr⟩⟩)
    · exact Or.inr ⟨_, _, _, h1, h2, (hasError_checkFieldCompat ..).2 h⟩

theorem hasError_checkEnumCompat (dir : Direction) (enumPath : String) (newEnum oldEnum : EnumDef X) :
    HasError (checkEnumCompat dir enumPath newEnum oldEnum) ↔ dir = .backwardDir ∧
      ∃ num valueName, lookup num (valueMap oldEnum) = some valueName ∧
        lookup num (valueMap newEnum) = none := by
  have hn : Ascending (valueMap newEnum) := ascending_fromList _
  have ho : Ascending (valueMap oldEnum) := ascending_fromList _
  unfold checkEnumCompat
  simp only [hasError_append]
  rw [hasError_difference ho, hasError_difference hn, hasError_forBoth hn]
  constructor
  · rintro ((⟨num, name, h1, h2, h⟩ | ⟨num, name, h1, h2, h⟩) | ⟨num, name, oldName, h1, h2, h⟩)
    · cases dir
      · exact ⟨rfl, num, name, h1, h2⟩
      · simp at h
    · cases dir <;> simp at h
    · split at h <;> simp at h
  · rintro ⟨rfl, num, name, h1, h2⟩
    exact Or.inl (Or.inl ⟨num, name, h1, h2, by simp⟩)

/-- **The verdict is green exactly when no rule raises an error.** -/
theorem isCompatible_iff (dir : Direction) (new old : ProtoFile X) :
    isCompatible (check dir new old) = true ↔ ¬ Reported dir new old := by
  have hm : Ascending (messageMap new) := ascending_fromList _
  have hm' : Ascending (messageMap old) := ascending_fromList _
  have he : Ascending (enumMap new) := ascending_fromList _
  rw [isCompatible_eq, not_iff_not]
  unfold check checkMessages checkEnums
  simp only [hasError_append]
  rw [hasError_difference hm', hasError_forBoth hm, hasError_forBoth he]
  constructor
  · rintro ((⟨name, oldMsg, h1, h2, h⟩ | ⟨name, newMsg, oldMsg, h1, h2, h⟩) |
      ⟨name, newEnum, oldEnum, h1, h2, h⟩)
    · cases dir
      · simp at h
      · exact .messageRemoved rfl h1 h2
    · exact .message h1 h2 ((hasError_checkMessageCompat ..).1 h)
    · obtain ⟨hd, num, valueName, h3, h4⟩ := (hasError_checkEnumCompat ..).1 h
      exact .enumValueRemoved hd h1 h2 h3 h4
  · rintro (⟨rfl, h1, h2⟩ | ⟨h1, h2, h⟩ | ⟨hd, h1, h2, h3, h4⟩)
    · exact Or.inl (Or.inl ⟨_, _, h1, h2, by simp⟩)
    · exact Or.inl (Or.inr ⟨_, _, _, h1, h2, (hasError_checkMessageCompat ..).2 h⟩)
    · exact Or.inr ⟨_, _, _, h1, h2, (hasError_checkEnumCompat ..).2 ⟨hd, _, _, h3, h4⟩⟩

end Wireform.Proto.Compat

/-
  The syntax tree of a `.proto` file (`Proto.IDL.AST`).

  Every node carries an annotation of a type `X`: a `Span` in a tree that was
  parsed, nothing in a tree that is only analysed.  Numbers of the source text
  that are floating-point are their bits.
-/
import Mathlib.Tactic.Common

namespace Wireform.Proto.Idl

/-! ## Spans -/

/-- The offsets of a piece of source text, the end exclusive. -/
structure SrcSpan where
  spanStart : Int
  spanEnd : Int
  deriving DecidableEq, Repr

abbrev Span := Option SrcSpan

/-! ## Options -/

inductive OptionNamePart where
  | simpleOption (name : String)
  | extensionOption (name : String)
  deriving DecidableEq, Repr

abbrev OptionName := List OptionNamePart

inductive Constant where
  | cIdent (name : String)
  | cInt (n : Int)
  | cFloat (bits : UInt64)
  | cString (text : String)
  | cBool (b : Bool)
  | cAggregate (fields : List (String × Constant))

structure OptionDef (X : Type) where
  optExt : X
  optName : OptionName
  optValue : Constant

/-! ## Fields -/

inductive FieldRule where
  | optional | required | repeated
  deriving DecidableEq, Repr

inductive ScalarType where
  | sDouble | sFloat | sInt32 | sInt64 | sUInt32 | sUInt64 | sSInt32 | sSInt64 | sFixed32 | sFixed64
  | sSFixed32 | sSFixed64 | sBool | sString | sBytes
  deriving DecidableEq, Repr

/-- The type of a field: a scalar, or the name of a message or an enum. -/
inductive FieldType where
  | ftScalar (s : ScalarType)
  | ftNamed (name : String)
  deriving DecidableEq, Repr

structure FieldDef (X : Type) where
  fieldExt : X
  fieldDoc : Option String
  fieldLabel : Option FieldRule
  fieldType : FieldType
  fieldName : String
  fieldNumber : Int
  fieldOptions : List (OptionDef X)

structure MapField (X : Type) where
  mapExt : X
  mapDoc : Option String
  mapKeyType : ScalarType
  mapValueType : FieldType
  mapFieldName : String
  mapFieldNum : Int
  mapOptions : List (OptionDef X)

structure OneofField (X : Type) where
  oneofFieldExt : X
  oneofFieldDoc : Option String
  oneofFieldType : FieldType
  oneofFieldName : String
  oneofFieldNumber : Int
  oneofFieldOptions : List (OptionDef X)

structure OneofDef (X : Type) where
  oneofExt : X
  oneofDoc : Option String
  oneofName : String
  oneofFields : List (OneofField X)
  oneofOptions : List (OptionDef X)

inductive ReservedName where
  | quotedReservedName (name : String)
  | identReservedName (name : String)
  deriving DecidableEq, Repr

inductive ReservedRange where
  | reservedSingle (n : Int)
  | reservedRange (lo hi : Int)
  deriving DecidableEq, Repr

inductive ReservedDef where
  | reservedNumbers (ranges : List ReservedRange)
  | reservedNames (names : List ReservedName)
  deriving DecidableEq, Repr

inductive ExtensionRangeBound where
  | extBoundNum (n : Int)
  | extBoundMax
  deriving DecidableEq, Repr

structure ExtensionRange where
  extStart : Int
  extEnd : ExtensionRangeBound
  deriving DecidableEq, Repr

/-! ## Enums and services -/

structure EnumValue (X : Type) where
  evExt : X
  evDoc : Option String
  evName : String
  evNumber : Int
  evOptions : List (OptionDef X)

structure EnumDef (X : Type) where
  enumExt : X
  enumDoc : Option String
  enumName : String
  enumValues : List (EnumValue X)
  enumOptions : List (OptionDef X)

inductive StreamQualifier where
  | noStream | streaming
  deriving DecidableEq, Repr

structure RpcDef (X : Type) where
  rpcExt : X
  rpcDoc : Option String
  rpcName : String
  rpcInput : String
  rpcInputStr : StreamQualifier
  rpcOutput : String
  rpcOutputStr : StreamQualifier
  rpcOptions : List (OptionDef X)

structure ServiceDef (X : Type) where
  svcExt : X
  svcDoc : Option String
  svcName : String
  svcRpcs : List (RpcDef X)
  svcOptions : List (OptionDef X)

/-! ## Messages -/

/-- The text of a comment, without its delimiters. -/
inductive Comment where
  | lineComment (text : String)
  | blockComment (text : String)
  deriving DecidableEq, Repr

mutual

/-- A message definition: its annotation, its comment, its name and the elements
    of its body. -/
inductive MessageDef (X : Type) where
  | mk (msgExt : X) (msgDoc : Option String) (msgName : String)
      (msgElements : List (MessageElement X))

inductive MessageElement (X : Type) where
  | meField (fd : FieldDef X)
  | meEnum (ed : EnumDef X)
  | meMessage (msg : MessageDef X)
  | meOneof (od : OneofDef X)
  | meMapField (mf : MapField X)
  | meReserved (rd : ReservedDef)
  | meExtensions (ranges : List ExtensionRange) (options : List (OptionDef X))
  | meExtend (name : String) (fields : List (FieldDef X))
  | meOption (od : OptionDef X)
  | meComment (cs : List Comment)

end

variable {X : Type}

def MessageDef.msgExt : MessageDef X → X
  | .mk ext _ _ _ => ext

def MessageDef.msgDoc : MessageDef X → Option String
  | .mk _ doc _ _ => doc

def MessageDef.msgName : MessageDef X → String
  | .mk _ _ name _ => name

def MessageDef.msgElements : MessageDef X → List (MessageElement X)
  | .mk _ _ _ elements => elements

/-! ## Files -/

inductive Syntax where
  | proto2
  | proto3
  | editions (editionName : String)
  deriving DecidableEq, Repr

inductive ImportModifier where
  | importPublic | importWeak
  deriving DecidableEq, Repr

structure ImportDef (X : Type) where
  importExt : X
  importModifier : Option ImportModifier
  importPath : String

inductive TopLevel (X : Type) where
  | tlMessage (msg : MessageDef X)
  | tlEnum (ed : EnumDef X)
  | tlService (sd : ServiceDef X)
  | tlExtend (name : String) (fields : List (FieldDef X))
  | tlOption (od : OptionDef X)
  | tlComment (cs : List Comment)

/-- A `.proto` file, with the source text it was parsed from. -/
structure ProtoFile (X : Type) where
  protoSyntax : Syntax
  protoPackage : Option String
  protoImports : List (ImportDef X)
  protoOptions : List (OptionDef X)
  protoTopLevels : List (TopLevel X)
  protoSource : Option String

/-! ## Queries (`Proto.IDL.Inspect`) -/

mutual

/-- A message and the messages nested in it, outermost first. -/
def MessageDef.flatten : MessageDef X → List (MessageDef X)
  | .mk ext doc name elements => .mk ext doc name elements :: flattenElements elements

def flattenElements : List (MessageElement X) → List (MessageDef X)
  | [] => []
  | .meMessage msg :: rest => msg.flatten ++ flattenElements rest
  | _ :: rest => flattenElements rest

end

/-- All top-level and nested message definitions, flattened. -/
def allMessages (pf : ProtoFile X) : List (MessageDef X) :=
  pf.protoTopLevels.flatMap fun
    | .tlMessage msg => msg.flatten
    | _ => []

mutual

/-- The enums nested in a message. -/
def MessageDef.enums : MessageDef X → List (EnumDef X)
  | .mk _ _ _ elements => enumsElements elements

def enumsElements : List (MessageElement X) → List (EnumDef X)
  | [] => []
  | .meEnum ed :: rest => ed :: enumsElements rest
  | .meMessage msg :: rest => msg.enums ++ enumsElements rest
  | _ :: rest => enumsElements rest

end

/-- All top-level and nested enum definitions, flattened. -/
def allEnums (pf : ProtoFile X) : List (EnumDef X) :=
  pf.protoTopLevels.flatMap fun
    | .tlEnum ed => [ed]
    | .tlMessage msg => msg.enums
    | _ => []

/-- The fields of a message, those of oneofs and maps excluded. -/
def messageFields (msg : MessageDef X) : List (FieldDef X) :=
  msg.msgElements.filterMap fun
    | .meField fd => some fd
    | _ => none

end Wireform.Proto.Idl

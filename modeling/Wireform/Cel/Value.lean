/-
  CEL values (`CEL.Value`, `CEL.Stdlib`, `CEL.Eval`).

  * `Value`: the values; integers are in their ranges, a double is its 64 bits;
  * `cmpNum`: the three numeric types on one line;
  * `valueEq`, `compareValues`: equality and order;
  * `celMap`, `celMapLookup`, `indexValue`: maps, and the lookups in lists and maps.
-/
import Wireform.Ieee
import Wireform.MachineInt
import Mathlib.Data.String.Basic
import Mathlib.Data.List.Lex

namespace Wireform.Cel

inductive CelType where
  | tyNull | tyBool | tyInt | tyUInt | tyDouble | tyString | tyBytes | tyList | tyMap | tyType | tyTimestamp
  | tyDuration
  | tyMessage (name : String)

def typeNameText : CelType → String
  | .tyNull => "null_type"
  | .tyBool => "bool"
  | .tyInt => "int"
  | .tyUInt => "uint"
  | .tyDouble => "double"
  | .tyString => "string"
  | .tyBytes => "bytes"
  | .tyList => "list"
  | .tyMap => "map"
  | .tyType => "type"
  | .tyTimestamp => "google.protobuf.Timestamp"
  | .tyDuration => "google.protobuf.Duration"
  | .tyMessage n => n

/-- Seconds and nanoseconds, of a duration or since the epoch. -/
structure Instant where
  seconds : Int64
  nanos : Int32

/-- `durationNanos` and `timestampNanos`. -/
def Instant.totalNanos (t : Instant) : Int := t.seconds.toInt * 1000000000 + t.nanos.toInt

inductive Value where
  | vNull
  | vBool (b : Bool)
  | vInt (n : Int64)
  | vUInt (n : UInt64)
  | vDouble (bits : UInt64)
  | vString (s : String)
  | vBytes (bs : List UInt8)
  | vList (v : List Value)
  | vMap (m : List (Value × Value))
  | vType (t : CelType)
  | vTimestamp (t : Instant)
  | vDuration (d : Instant)

/-- The entries of a map, in the order they were inserted. -/
abbrev CelMap := List (Value × Value)

def typeOf : Value → CelType
  | .vNull => .tyNull
  | .vBool _ => .tyBool
  | .vInt _ => .tyInt
  | .vUInt _ => .tyUInt
  | .vDouble _ => .tyDouble
  | .vString _ => .tyString
  | .vBytes _ => .tyBytes
  | .vList _ => .tyList
  | .vMap _ => .tyMap
  | .vType _ => .tyType
  | .vTimestamp _ => .tyTimestamp
  | .vDuration _ => .tyDuration

/-! ## Numbers -/

/-- The value of a double; `none` is a NaN. -/
def doubleValue (bits : UInt64) : Option Extended := Ieee.binary64.value bits.toNat

/-- The nearest number with 53 bits, of two that are as near the even one. -/
def roundNearest (n : Nat) : Nat :=
  let e := n.log2 - 52
  if 2 ^ e < 2 * (n % 2 ^ e) ∨ 2 * (n % 2 ^ e) = 2 ^ e ∧ n / 2 ^ e % 2 = 1 then (n / 2 ^ e + 1) * 2 ^ e
  else n / 2 ^ e * 2 ^ e

/-- An integer as a double. -/
def toDouble (n : Int) : Extended := (((n.sign * roundNearest n.natAbs : Int) : ℚ) : WithTop ℚ)

inductive Num3 where
  | ni (n : Int64)
  | nu (n : UInt64)
  | nd (bits : UInt64)

def toNum : Value → Option Num3
  | .vInt i => some (.ni i)
  | .vUInt u => some (.nu u)
  | .vDouble d => some (.nd d)
  | _ => none

/-- `compare`. -/
def compareOf {α : Type} [LinearOrder α] (x y : α) : Ordering := compareOfLessAndEq x y

def cmpIntUint (x : Int64) (y : UInt64) : Ordering :=
  if x.toInt < 0 then .lt else compareOf x.toInt.toNat y.toNat

/-- Lossy where an integer is not a double: it is rounded before the comparison. -/
def cmpIntDouble (x : Int64) (y : UInt64) : Option Ordering :=
  match doubleValue y with
  | none => none
  | some y =>
    if y < toDouble (-2 ^ 63) then some .gt
    else if toDouble (2 ^ 63 - 1) < y then some .lt
    else some (compareOf (toDouble x.toInt) y)

def cmpUintDouble (x y : UInt64) : Option Ordering :=
  match doubleValue y with
  | none => none
  | some y =>
    if y < ((0 : ℚ) : WithTop ℚ) then some .gt
    else if toDouble (2 ^ 64 - 1) < y then some .lt
    else some (compareOf (toDouble x.toNat) y)

def cmpNum : Num3 → Num3 → Option Ordering
  | .ni x, .ni y => some (compareOf x.toInt y.toInt)
  | .nu x, .nu y => some (compareOf x.toNat y.toNat)
  | .nd x, .nd y =>
    match doubleValue x, doubleValue y with
    | some x, some y => some (compareOf x y)
    | _, _ => none
  | .ni x, .nu y => some (cmpIntUint x y)
  | .nu x, .ni y => some (cmpIntUint y x).swap
  | .ni x, .nd y => cmpIntDouble x y
  | .nd x, .ni y => (cmpIntDouble y x).map Ordering.swap
  | .nu x, .nd y => cmpUintDouble x y
  | .nd x, .nu y => (cmpUintDouble y x).map Ordering.swap

/-! ## Equality -/

mutual

def valueEq : Value → Value → Bool
  | .vNull, .vNull => true
  | .vBool x, .vBool y => x == y
  | .vString x, .vString y => x == y
  | .vBytes x, .vBytes y => x == y
  | .vTimestamp x, .vTimestamp y => x.totalNanos == y.totalNanos
  | .vDuration x, .vDuration y => x.totalNanos == y.totalNanos
  | .vType x, .vType y => typeNameText x == typeNameText y
  | .vList x, .vList y => x.length == y.length && listEq x y
  | .vMap x, .vMap y => x.length == y.length && entriesMatch x y
  | a, b =>
    match toNum a, toNum b with
    | some x, some y => cmpNum x y == some .eq
    | _, _ => false

/-- `V.and` of a `V.zipWith valueEq`. -/
def listEq : List Value → List Value → Bool
  | x :: xs, y :: ys => valueEq x y && listEq xs ys
  | _, _ => true

/-- Every entry of `xs` is found in `ys`, with the same value. -/
def entriesMatch : List (Value × Value) → CelMap → Bool
  | [], _ => true
  | (k, v) :: xs, ys =>
    (match (ys.find? fun e => valueEq k e.1).map Prod.snd with
      | some v' => valueEq v v'
      | none => false) && entriesMatch xs ys

end

/-- The first entry whose key compares equal. -/
def celMapLookup (k : Value) (m : CelMap) : Option Value := (m.find? fun e => valueEq k e.1).map Prod.snd

def compareValues : Value → Value → Option Ordering
  | .vBool x, .vBool y => some (compareOf x y)
  | .vString x, .vString y => some (compareOf x y)
  | .vBytes x, .vBytes y => some (compareOf (x.map UInt8.toNat) (y.map UInt8.toNat))
  | .vTimestamp x, .vTimestamp y => some (compareOf x.totalNanos y.totalNanos)
  | .vDuration x, .vDuration y => some (compareOf x.totalNanos y.totalNanos)
  | a, b =>
    match toNum a, toNum b with
    | some x, some y => cmpNum x y
    | _, _ => none

/-! ## Maps and lookups -/

inductive ErrKind where
  | errNoOverload | errNoSuchKey | errInvalid
  deriving DecidableEq

structure CelError where
  errKind : ErrKind
  errMsg : String

def noOverload (n : String) : CelError := ⟨.errNoOverload, "no matching overload for '" ++ n ++ "'"⟩

def noSuchKey (k : String) : CelError := ⟨.errNoSuchKey, "no such key: " ++ k⟩

def invalidArg (msg : String) : CelError := ⟨.errInvalid, msg⟩

def validateKey : Value → Except CelError Unit
  | .vInt _ | .vUInt _ | .vBool _ | .vString _ => .ok ()
  | v => .error (invalidArg ("invalid map key type: " ++ typeNameText (typeOf v)))

section
variable (showValue : Value → String)

def celMapGo (acc : List (Value × Value)) : List (Value × Value) → Except String CelMap
  | [] => .ok acc.reverse
  | (k, v) :: rest =>
    if acc.any fun e => valueEq k e.1 then .error ("duplicate key in map: " ++ showValue k)
    else celMapGo ((k, v) :: acc) rest

def celMap (entries : List (Value × Value)) : Except String CelMap := celMapGo showValue [] entries

/-- The entries that a `transformMap` keeps, with their new values. -/
def transformEntries (transform : Value → Value → Except CelError (Option Value)) :
    List (Value × Value) → Except CelError (List (Value × Value))
  | [] => .ok []
  | (k, val) :: rest => do
    let nv ← transform k val
    let out ← transformEntries transform rest
    return match nv with
      | some nv => (k, nv) :: out
      | none => out

/-- `transform` is the filter and the new value, in the environment of the entry. -/
def transformMap (transform : Value → Value → Except CelError (Option Value)) : Value → Except CelError Value
  | .vMap m => do
    let out ← transformEntries transform m
    match celMap showValue out with
    | .error msg => .error (invalidArg msg)
    | .ok cm => .ok (.vMap cm)
  | v => .error (noOverload ("transformMap over " ++ typeNameText (typeOf v)))

def renderKey : Value → String
  | .vString s => s
  | .vInt i => toString i.toInt
  | .vUInt u => toString u.toNat
  | .vBool b => if b then "true" else "false"
  | v => showValue v

/-- `truncate`, to an unbounded integer. -/
def truncate (q : ℚ) : Int := q.num.tdiv q.den

variable (double2Int : UInt64 → Int)

/-- `truncate` of a double as a machine integer: what lies outside the range becomes one of its ends. -/
structure Truncates : Prop where
  exact : ∀ d (q : ℚ), doubleValue d = some ((q : WithTop ℚ) : Extended) → InRange (truncate q) →
    double2Int d = truncate q
  outside : ∀ d (q : ℚ), doubleValue d = some ((q : WithTop ℚ) : Extended) → ¬InRange (truncate q) →
    double2Int d = -2 ^ 63 ∨ double2Int d = 2 ^ 63 - 1

/-- The integral part of a double is a double, so the way there and back only asks if there is a fraction. -/
def asListIndex : Value → Option Int
  | .vInt n => some n.toInt
  | .vUInt n => some (ofWord n)
  | .vDouble d =>
    match doubleValue d with
    | some (some (some q)) => if (truncate q : ℚ) = q then some (double2Int d) else none
    | _ => none
  | _ => none

def indexValue : Value → Value → Except CelError Value
  | .vList v, i =>
    match asListIndex double2Int i with
    | some k =>
      if k < 0 ∨ (v.length : Int) ≤ k then .error ⟨.errNoSuchKey, "index out of bounds"⟩
      else
        match v[k.toNat]? with
        | some x => .ok x
        | none => .error ⟨.errNoSuchKey, "index out of bounds"⟩
    | none => .error (noOverload "_[_]")
  | .vMap m, k =>
    match celMapLookup k m with
    | some val => .ok val
    | none => .error (noSuchKey (renderKey showValue k))
  | _, _ => .error (noOverload "_[_]")

end

end Wireform.Cel

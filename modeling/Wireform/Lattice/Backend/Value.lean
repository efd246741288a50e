/-
  JSON values, their canonical text and cursors (`Lattice.Value`, `Lattice.Cursor`).

  A number is the rational that it denotes, an object the list of its members.  What other
  packages do is a `Codec`: base64, the decoding of JSON, the rendering of a text and of
  a number that is not a safe integer.

  * `canonicalJson`, `encodeCursor`, `decodeCursor`;
  * `Codec.Exact`: the text of a cursor can be read back.
-/
import Mathlib.Data.Rat.Defs
import Mathlib.Data.String.Basic

namespace Wireform.Lattice.Backend

inductive Value where
  | null
  | bool (b : Bool)
  | number (n : ℚ)
  | string (s : String)
  | array (xs : List Value)
  | object (members : List (String × Value))

/-- What the packages `base64`, `aeson` and `scientific` and the hash of a cursor specification compute. -/
structure Codec where
  encodeUnpadded : List UInt8 → String
  decodeUnpadded : String → Option (List UInt8)
  decodeStrict : List UInt8 → Option Value
  encodeText : String → List UInt8
  formatScientific : ℚ → List UInt8
  cursorSpecHash : String → List UInt8

variable (c : Codec)

/-! ## Canonical JSON -/

def integerDec (i : Int) : List UInt8 :=
  (if i < 0 then [45] else []) ++ (Nat.toDigits 10 i.natAbs).map fun d => UInt8.ofNat d.toNat

/-- An integer that a double holds has neither fraction nor exponent. -/
def Codec.renderNumber (n : ℚ) : List UInt8 :=
  if n.den = 1 ∧ n.num.natAbs ≤ 9007199254740991 then integerDec n.num else c.formatScientific n

/-- The parts, with commas between them. -/
def commas (parts : List (List UInt8)) : List UInt8 := [44].intercalate parts

mutual

def Codec.canonicalJson : Value → List UInt8
  | .null => [110, 117, 108, 108]
  | .bool true => [116, 114, 117, 101]
  | .bool false => [102, 97, 108, 115, 101]
  | .number n => c.renderNumber n
  | .string t => c.encodeText t
  | .array xs => [91] ++ commas (Codec.canonicalValues xs) ++ [93]
  | .object o =>
    [123] ++ commas (((Codec.canonicalMembers o).mergeSort fun m m' => decide (m.1 ≤ m'.1)).map fun m =>
      c.encodeText m.1 ++ [58] ++ m.2) ++ [125]

def Codec.canonicalValues : List Value → List (List UInt8)
  | [] => []
  | v :: vs => Codec.canonicalJson v :: Codec.canonicalValues vs

def Codec.canonicalMembers : List (String × Value) → List (String × List UInt8)
  | [] => []
  | (k, v) :: ms => (k, Codec.canonicalJson v) :: Codec.canonicalMembers ms

end

/-! ## Cursors -/

abbrev FieldName := String

inductive Direction where
  | asc
  | desc
  deriving DecidableEq

inductive CountPolicy where
  | none
  | estimate
  | exact
  deriving DecidableEq

structure CursorSpec where
  csKeyset : List (FieldName × Direction)
  csTotal : CountPolicy

structure Cursor where
  curSpec : String
  curValues : List Value

inductive CursorError where
  | malformed
  | retired
  deriving DecidableEq

def renderDir : Direction → String
  | .asc => "asc"
  | .desc => "desc"

def Codec.specHashOf (spec : CursorSpec) : String :=
  c.encodeUnpadded (c.cursorSpecHash (",".intercalate (spec.csKeyset.map fun k => k.1 ++ " " ++ renderDir k.2)))

/-- What a cursor is the text of. -/
def Codec.cursorValue (spec : CursorSpec) (vals : List Value) : Value :=
  .array (.string (c.specHashOf spec) :: vals)

def Codec.encodeCursor (spec : CursorSpec) (vals : List Value) : String :=
  "cur_" ++ c.encodeUnpadded (c.canonicalJson (c.cursorValue spec vals))

/-- What follows a prefix of the text. -/
def stripPrefix (p t : String) : Option String :=
  if p.toList.isPrefixOf t.toList then some (String.ofList (t.toList.drop p.toList.length)) else none

def Codec.decodeCursor (spec : CursorSpec) (t : String) : Except CursorError Cursor := do
  let body ← (stripPrefix "cur_" t).elim (.error .malformed) .ok
  let bs ← (c.decodeUnpadded body).elim (.error .malformed) .ok
  let arr ← (c.decodeStrict bs).elim (.error .malformed) .ok
  match arr with
  | .array (.string h :: vals) => if h = c.specHashOf spec then .ok ⟨h, vals⟩ else .error .retired
  | _ => .error .malformed

/-- The decoder of JSON reads what was written for the value. -/
def Codec.Reads (v : Value) : Prop := c.decodeStrict (c.canonicalJson v) = some v

/-- Base64 and JSON give back the values of a cursor. -/
structure Codec.Exact (spec : CursorSpec) (vals : List Value) : Prop where
  url : c.decodeUnpadded (c.encodeUnpadded (c.canonicalJson (c.cursorValue spec vals))) =
    some (c.canonicalJson (c.cursorValue spec vals))
  cursor : c.Reads (c.cursorValue spec vals)
  values : ∀ v ∈ vals, c.Reads v

theorem stripPrefix_append (p t : String) : stripPrefix p (p ++ t) = some t := by
  have hpre : p.toList.isPrefixOf (p ++ t).toList = true := by
    rw [String.toList_append]
    exact List.isPrefixOf_iff_prefix.2 (List.prefix_append _ _)
  rw [stripPrefix, if_pos hpre, String.toList_append, List.drop_left, String.ofList_toList]

theorem Codec.Exact.decodeCursor_encodeCursor {c : Codec} {spec : CursorSpec} {vals : List Value}
    (h : c.Exact spec vals) : c.decodeCursor spec (c.encodeCursor spec vals) = .ok ⟨c.specHashOf spec, vals⟩ := by
  have hjson : c.decodeStrict (c.canonicalJson (c.cursorValue spec vals)) = some (c.cursorValue spec vals) := h.cursor
  simp only [Codec.decodeCursor, Codec.encodeCursor, stripPrefix_append, Option.elim_some, h.url, hjson, bind,
    Except.bind]
  exact if_pos rfl

end Wireform.Lattice.Backend

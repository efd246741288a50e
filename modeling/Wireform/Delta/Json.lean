/-
  JSON values and their decoding into fields.

  An object is a map (`AssocMap`), a number `c · 10 ^ e` the pair of its
  coefficient and exponent.  A decoder answers nothing where the source's fails;
  the texts of its errors are dropped there too.
-/
import Wireform.AssocMap
import Mathlib.Data.String.Basic
import Mathlib.Tactic.Common

namespace Wireform.Delta

inductive Value where
  | null
  | bool (b : Bool)
  | number (coefficient exponent : Int)
  | string (s : String)
  | array (xs : List Value)
  | object (fields : List (String × Value))

abbrev Object := AssocMap String Value

/-! ## Decoders -/

def withObject {α : Type} (f : Object → Option α) : Value → Option α
  | .object o => f o
  | _ => none

def parseText : Value → Option String
  | .string s => some s
  | _ => none

def parseBool : Value → Option Bool
  | .bool b => some b
  | _ => none

/-- The integer that a number is, if it is one. -/
def integral (c e : Int) : Option Int :=
  if 0 ≤ e then some (c * 10 ^ e.toNat)
  else if c % 10 ^ (-e).toNat = 0 then some (c / 10 ^ (-e).toNat) else none

/-- An integer in the bounds of a machine type. -/
def parseBounded (lo hi : Int) : Value → Option Int
  | .number c e => (integral c e).filter fun n => decide (lo ≤ n ∧ n ≤ hi)
  | _ => none

def parseWord64 (v : Value) : Option Nat := (parseBounded 0 (2 ^ 64 - 1) v).map Int.toNat

def parseInt : Value → Option Int := parseBounded (-2 ^ 63) (2 ^ 63 - 1)

/-- A value that may be null. -/
def parseNullable {α : Type} (f : Value → Option α) : Value → Option (Option α)
  | .null => some none
  | v => (f v).map some

def parseMapOf {α : Type} (f : Value → Option α) : Value → Option (AssocMap String α)
  | .object o => o.mapM fun e => (f e.2).map fun v => (e.1, v)
  | _ => none

def parseListOf {α : Type} (f : Value → Option α) : Value → Option (List α)
  | .array xs => xs.mapM f
  | _ => none

/-- `.:` -/
def field {α : Type} (o : Object) (f : Value → Option α) (k : String) : Option α := (AssocMap.lookup k o).bind f

/-- `.:?`: the field may be absent or null. -/
def fieldMaybe {α : Type} (o : Object) (f : Value → Option α) (k : String) : Option (Option α) :=
  match AssocMap.lookup k o with
  | none => some none
  | some v => parseNullable f v

/-! ## Values that a field may hold -/

/-- The value is the number. -/
def Value.IsNat (v : Value) (n : Nat) : Prop := ∃ c e, v = .number c e ∧ integral c e = some (n : Int)

/-- The value is an object of such entries. -/
def Value.IsMap {α : Type} (is : Value → α → Prop) (v : Value) (m : AssocMap String α) : Prop :=
  ∃ o : Object, v = .object o ∧ List.Forall₂ (fun e e' => e.1 = e'.1 ∧ is e.2 e'.2) o m

/-- The value is null, or such a value. -/
def Value.IsNullable {α : Type} (is : Value → α → Prop) (v : Value) : Option α → Prop
  | none => v = .null
  | some a => v ≠ .null ∧ is v a

/-- The object has the field. -/
def HasField {α : Type} (o : Object) (k : String) (is : Value → α → Prop) (a : α) : Prop :=
  ∃ v, AssocMap.lookup k o = some v ∧ is v a

/-- The object has the field, or it is absent or null there. -/
def MayField {α : Type} (o : Object) (k : String) (is : Value → α → Prop) : Option α → Prop
  | none => AssocMap.lookup k o = none ∨ AssocMap.lookup k o = some .null
  | some a => ∃ v, AssocMap.lookup k o = some v ∧ v ≠ .null ∧ is v a

section
variable {α : Type} {o : Object} {k : String} {v : Value} {f : Value → Option α} {is : Value → α → Prop} {a : α}
  {n : Nat}

theorem parseWord64_of_isNat (h : v.IsNat n) (hlt : n < 2 ^ 64) : parseWord64 v = some n := by
  obtain ⟨c, e, rfl, hn⟩ := h
  have hin : (0 : Int) ≤ n ∧ (n : Int) ≤ 2 ^ 64 - 1 := by omega
  rw [parseWord64, parseBounded, hn, Option.filter_some, if_pos (by simpa using hin)]
  rfl

theorem parseNullable_of_ne (hne : v ≠ .null) (h : f v = some a) : parseNullable f v = some (some a) := by
  cases v with
  | null => exact absurd rfl hne
  | _ => simp [parseNullable, h]

theorem parseNullable_of (hf : ∀ v a, is v a → f v = some a) {x : Option α} (h : v.IsNullable is x) :
    parseNullable f v = some x := by
  cases x with
  | none =>
    cases h
    rfl
  | some a => exact parseNullable_of_ne h.1 (hf v a h.2)

theorem parseMapOf_of (hf : ∀ v a, is v a → f v = some a) {m : AssocMap String α} (h : v.IsMap is m) :
    parseMapOf f v = some m := by
  obtain ⟨o, rfl, ho⟩ := h
  rw [parseMapOf]
  induction ho with
  | nil => rfl
  | @cons e e' o m he _ ih =>
    rw [List.mapM_cons, hf e.2 e'.2 he.2, ih, he.1]
    rfl

theorem field_of (hf : ∀ v a, is v a → f v = some a) (h : HasField o k is a) : field o f k = some a := by
  obtain ⟨v, hv, hva⟩ := h
  rw [field, hv]
  exact hf v a hva

theorem fieldMaybe_of (hf : ∀ v a, is v a → f v = some a) {x : Option α} (h : MayField o k is x) :
    fieldMaybe o f k = some x := by
  unfold fieldMaybe
  cases x with
  | none =>
    rcases h with h | h
    · rw [h]
    · rw [h]
      rfl
  | some a =>
    obtain ⟨v, hv, hne, hva⟩ := h
    rw [hv]
    exact parseNullable_of_ne hne (hf v a hva)

end

end Wireform.Delta

/-
  Predicates over columns.

  * `PValue`, `PColPredicate`, `Predicate`: literals, predicates on one column and their
    boolean combinations;
  * `evalRange`: whether values between two bounds may match;
  * `Scalar`: what a literal stands for. Numbers, truth values and byte strings are each
    ordered, and not compared with each other;
  * `PColPredicate.holds`: when a cell makes a predicate true, and when false; a comparison
    with a null is neither;
  * `evalRange_keeps`: a range with a matching value is kept.
-/
import Wireform.Ieee
import Mathlib.Data.List.Lex

namespace Wireform.Columnar

/-! ## Vocabulary -/

/-- Floating-point literals are their bits. -/
inductive PValue where
  | int32 (n : Int32)
  | int64 (n : Int64)
  | float (bits : UInt32)
  | double (bits : UInt64)
  | bool (b : Bool)
  | text (s : String)
  | binary (bytes : List UInt8)
  | unsigned (n : UInt64)
  | decimal (q : ℚ)
  deriving DecidableEq

inductive PColPredicate where
  | eq (v : PValue)
  | neq (v : PValue)
  | lt (v : PValue)
  | ltEq (v : PValue)
  | gt (v : PValue)
  | gtEq (v : PValue)
  | isIn (vs : List PValue)
  | isNull
  | isNotNull

inductive Predicate where
  | col (name : String) (p : PColPredicate)
  | and (a b : Predicate)
  | or (a b : Predicate)
  | not (a : Predicate)
  | tt
  | ff

inductive Decision where
  | skip | maybeKeep
  deriving DecidableEq, Repr

def combineDecisions : Decision → Decision → Decision
  | .skip, _ => .skip
  | _, .skip => .skip
  | _, _ => .maybeKeep

/-! ## Ranges -/

def encodeUtf8 (s : String) : List UInt8 := s.toUTF8.data.toList

/-- Literals of different constructors are not compared. -/
def pvLess : PValue → PValue → Bool
  | .int32 a, .int32 b => a < b
  | .int64 a, .int64 b => a < b
  | .float a, .float b => Ieee.binary32.less a.toNat b.toNat
  | .double a, .double b => Ieee.binary64.less a.toNat b.toNat
  | .bool a, .bool b => !a && b
  | .text a, .text b => encodeUtf8 a < encodeUtf8 b
  | .binary a, .binary b => a < b
  | .unsigned a, .unsigned b => a < b
  | .decimal a, .decimal b => a < b
  | _, _ => false

def pvEq : PValue → PValue → Bool
  | .float a, .float b => Ieee.binary32.same a.toNat b.toNat
  | .double a, .double b => Ieee.binary64.same a.toNat b.toNat
  | a, b => a = b

def pvLessEq (a b : PValue) : Bool := pvLess a b || pvEq a b

def evalRange (mn mx : PValue) (predicate : PColPredicate) : Decision :=
  if pvLess mx mn then .maybeKeep
  else
    match predicate with
    | .eq v => if pvLess v mn || pvLess mx v then .skip else .maybeKeep
    | .neq _ => .maybeKeep
    | .lt v => if pvLessEq v mn then .skip else .maybeKeep
    | .ltEq v => if pvLess v mn then .skip else .maybeKeep
    | .gt v => if pvLessEq mx v then .skip else .maybeKeep
    | .gtEq v => if pvLess mx v then .skip else .maybeKeep
    | .isIn vs => if vs.all fun v => pvLess v mn || pvLess mx v then .skip else .maybeKeep
    | .isNull => .maybeKeep
    | .isNotNull => .maybeKeep

/-! ## What literals stand for -/

inductive Scalar where
  | number (x : Extended)
  | truth (b : Bool)
  | bytes (bs : List UInt8)

/-- Byte strings are ordered by their first difference. -/
def octets (bs : List UInt8) : List ℕ := bs.map UInt8.toNat

variable {a b : PValue} {as bs : List UInt8}

theorem octets_inj (h : octets as = octets bs) : as = bs :=
  List.map_injective_iff.2 (fun _ _ => UInt8.toNat_inj.1) h

theorem octets_lt (h : as < bs) : octets as < octets bs := by
  induction h with
  | nil => exact List.Lex.nil
  | cons _ ih => exact List.Lex.cons ih
  | rel h => exact List.Lex.rel (UInt8.lt_iff_toNat_lt.1 h)

def Scalar.LessEq : Scalar → Scalar → Prop
  | .number x, .number y => x ≤ y
  | .truth a, .truth b => a ≤ b
  | .bytes as, .bytes bs => octets as ≤ octets bs
  | _, _ => False

instance : PartialOrder Scalar where
  le := Scalar.LessEq
  le_refl s := by cases s <;> exact le_refl _
  le_trans s t u hst htu := by
    cases s <;> cases t <;> first
      | exact hst.elim
      | cases u <;> first
        | exact htu.elim
        | exact le_trans hst htu
  le_antisymm s t hst hts := by
    cases s <;> cases t <;> first
      | exact hst.elim
      | skip
    · exact congrArg Scalar.number (le_antisymm hst hts)
    · exact congrArg Scalar.truth (le_antisymm hst hts)
    · exact congrArg Scalar.bytes (octets_inj (le_antisymm hst hts))

def rational (q : ℚ) : Scalar := .number ((q : WithTop ℚ) : Extended)

theorem number_lt {x y : Extended} : Scalar.number x < .number y ↔ x < y := by
  rw [lt_iff_le_not_ge, lt_iff_le_not_ge]
  exact Iff.rfl

theorem rational_le {p q : ℚ} : rational p ≤ rational q ↔ p ≤ q :=
  WithBot.coe_le_coe.trans WithTop.coe_le_coe

theorem rational_lt {p q : ℚ} : rational p < rational q ↔ p < q :=
  number_lt.trans (WithBot.coe_lt_coe.trans WithTop.coe_lt_coe)

theorem rational_inj {p q : ℚ} (h : rational p = rational q) : p = q :=
  le_antisymm (rational_le.1 h.le) (rational_le.1 h.ge)

theorem bytes_lt (h : as < bs) : Scalar.bytes as < .bytes bs := by
  have hlt := octets_lt h
  exact lt_iff_le_not_ge.2 ⟨hlt.le, not_le.2 hlt⟩

/-- What a literal stands for; a floating-point literal may be no number. -/
def PValue.meaning : PValue → Option Scalar
  | .int32 n => some (rational n.toInt)
  | .int64 n => some (rational n.toInt)
  | .float bits => (Ieee.binary32.value bits.toNat).map .number
  | .double bits => (Ieee.binary64.value bits.toNat).map .number
  | .bool b => some (.truth b)
  | .text s => some (.bytes (encodeUtf8 s))
  | .binary bytes => some (.bytes bytes)
  | .unsigned n => some (rational n.toNat)
  | .decimal q => some (rational q)

attribute [grind =] PValue.meaning

theorem pvLess_lt (h : pvLess a b = true) :
    ∃ x y, a.meaning = some x ∧ b.meaning = some y ∧ x < y := by
  unfold pvLess at h
  split at h
  case h_1 a b =>
    refine ⟨_, _, rfl, rfl, rational_lt.2 ?_⟩
    exact_mod_cast Int32.lt_iff_toInt_lt.1 (of_decide_eq_true h)
  case h_2 a b =>
    refine ⟨_, _, rfl, rfl, rational_lt.2 ?_⟩
    exact_mod_cast Int64.lt_iff_toInt_lt.1 (of_decide_eq_true h)
  case h_3 a b =>
    obtain ⟨x, y, hx, hy, hlt⟩ := (Ieee.less_iff _).1 h
    exact ⟨.number x, .number y, by simp [PValue.meaning, hx], by simp [PValue.meaning, hy], number_lt.2 hlt⟩
  case h_4 a b =>
    obtain ⟨x, y, hx, hy, hlt⟩ := (Ieee.less_iff _).1 h
    exact ⟨.number x, .number y, by simp [PValue.meaning, hx], by simp [PValue.meaning, hy], number_lt.2 hlt⟩
  case h_5 a b =>
    rw [Bool.and_eq_true, Bool.not_eq_true'] at h
    obtain ⟨rfl, rfl⟩ := h
    exact ⟨_, _, rfl, rfl, lt_iff_le_not_ge.2 ⟨Bool.false_le true, by rintro hle; cases hle rfl⟩⟩
  case h_6 a b => exact ⟨_, _, rfl, rfl, bytes_lt (of_decide_eq_true h)⟩
  case h_7 a b => exact ⟨_, _, rfl, rfl, bytes_lt (of_decide_eq_true h)⟩
  case h_8 a b =>
    refine ⟨_, _, rfl, rfl, rational_lt.2 ?_⟩
    exact_mod_cast UInt64.lt_iff_toNat_lt.1 (of_decide_eq_true h)
  case h_9 a b => exact ⟨_, _, rfl, rfl, rational_lt.2 (of_decide_eq_true h)⟩
  case h_10 => cases h

theorem pvEq_eq (h : pvEq a b = true) : a.meaning = b.meaning := by
  unfold pvEq at h
  split at h
  · obtain ⟨x, hx, hy⟩ := (Ieee.same_iff _).1 h
    simp [PValue.meaning, hx, hy]
  · obtain ⟨x, hx, hy⟩ := (Ieee.same_iff _).1 h
    simp [PValue.meaning, hx, hy]
  · rw [of_decide_eq_true h]

theorem pvLess_left {x : Scalar} (h : pvLess a b = true) (hx : a.meaning = some x) :
    ∃ y, b.meaning = some y ∧ x < y := by
  obtain ⟨x', y, hx', hy, hlt⟩ := pvLess_lt h
  rw [hx] at hx'
  cases hx'
  exact ⟨y, hy, hlt⟩

theorem pvLess_right {y : Scalar} (h : pvLess a b = true) (hy : b.meaning = some y) :
    ∃ x, a.meaning = some x ∧ x < y := by
  obtain ⟨x, y', hx, hy', hlt⟩ := pvLess_lt h
  rw [hy] at hy'
  cases hy'
  exact ⟨x, hx, hlt⟩

theorem pvLessEq_left {x : Scalar} (h : pvLessEq a b = true) (hx : a.meaning = some x) :
    ∃ y, b.meaning = some y ∧ x ≤ y := by
  rcases Bool.or_eq_true_iff.1 h with h | h
  · obtain ⟨y, hy, hlt⟩ := pvLess_left h hx
    exact ⟨y, hy, hlt.le⟩
  · exact ⟨x, (pvEq_eq h).symm.trans hx, le_rfl⟩

theorem pvLessEq_right {y : Scalar} (h : pvLessEq a b = true) (hy : b.meaning = some y) :
    ∃ x, a.meaning = some x ∧ x ≤ y := by
  rcases Bool.or_eq_true_iff.1 h with h | h
  · obtain ⟨x, hx, hlt⟩ := pvLess_right h hy
    exact ⟨x, hx, hlt.le⟩
  · exact ⟨y, (pvEq_eq h).trans hy, le_rfl⟩

/-! ## Cells -/

section

variable {α : Type} (read : α → Option Scalar)

/-- Whether a cell and a literal are related (or not); a null is not compared. -/
def Compares (rel : Scalar → Scalar → Prop) (b : Bool) (cell : Option α) (v : PValue) : Prop :=
  ∃ a x y, cell = some a ∧ read a = some x ∧ v.meaning = some y ∧ (x ≤ y ∨ y ≤ x) ∧ (rel x y ↔ b = true)

/-- Whether a cell makes a predicate true, or false. -/
def PColPredicate.holds (b : Bool) (cell : Option α) : PColPredicate → Prop
  | .eq v => Compares read (· = ·) b cell v
  | .neq v => Compares read (· ≠ ·) b cell v
  | .lt v => Compares read (· < ·) b cell v
  | .ltEq v => Compares read (· ≤ ·) b cell v
  | .gt v => Compares read (· > ·) b cell v
  | .gtEq v => Compares read (· ≥ ·) b cell v
  | .isIn vs =>
    if b then ∃ v ∈ vs, Compares read (· = ·) true cell v else ∀ v ∈ vs, Compares read (· = ·) false cell v
  | .isNull => cell.isNone = b
  | .isNotNull => cell.isSome = b

variable {read}

theorem Compares.related {rel : Scalar → Scalar → Prop} {a : α} {v : PValue} (h : Compares read rel true (some a) v) :
    ∃ x y, read a = some x ∧ v.meaning = some y ∧ rel x y := by
  obtain ⟨_, x, y, ⟨⟩, hx, hy, -, hrel⟩ := h
  exact ⟨x, y, hx, hy, hrel.2 rfl⟩

/-- **A range that holds a matching value is kept.** A bound that is not compared with the value does no harm. -/
theorem evalRange_keeps {mn mx : PValue} {a : α} {cp : PColPredicate}
    (hlo : ∀ x lo, read a = some x → mn.meaning = some lo → ¬x < lo)
    (hhi : ∀ x hi, read a = some x → mx.meaning = some hi → ¬hi < x)
    (h : cp.holds read true (some a)) : evalRange mn mx cp = .maybeKeep := by
  have member : ∀ v, Compares read (· = ·) true (some a) v → ¬(pvLess v mn || pvLess mx v) = true := by
    intro v hv hout
    obtain ⟨x, _, hx, hy, rfl⟩ := hv.related
    rcases Bool.or_eq_true_iff.1 hout with hout | hout
    · obtain ⟨lo, hmn, hlt⟩ := pvLess_left hout hy
      exact hlo x lo hx hmn hlt
    · obtain ⟨hi, hmx, hlt⟩ := pvLess_right hout hy
      exact hhi x hi hx hmx hlt
  unfold evalRange
  split
  · rfl
  cases cp with
  | eq v => exact if_neg (member v h)
  | neq v => rfl
  | lt v =>
    obtain ⟨x, y, hx, hy, hrel⟩ := Compares.related h
    refine if_neg fun hle => ?_
    obtain ⟨lo, hmn, hle⟩ := pvLessEq_left hle hy
    exact hlo x lo hx hmn (hrel.trans_le hle)
  | ltEq v =>
    obtain ⟨x, y, hx, hy, hrel⟩ := Compares.related h
    refine if_neg fun hlt => ?_
    obtain ⟨lo, hmn, hlt⟩ := pvLess_left hlt hy
    exact hlo x lo hx hmn (lt_of_le_of_lt hrel hlt)
  | gt v =>
    obtain ⟨x, y, hx, hy, hrel⟩ := Compares.related h
    refine if_neg fun hle => ?_
    obtain ⟨hi, hmx, hle⟩ := pvLessEq_right hle hy
    exact hhi x hi hx hmx (lt_of_le_of_lt hle hrel)
  | gtEq v =>
    obtain ⟨x, y, hx, hy, hrel⟩ := Compares.related h
    refine if_neg fun hlt => ?_
    obtain ⟨hi, hmx, hlt⟩ := pvLess_right hlt hy
    exact hhi x hi hx hmx (lt_of_lt_of_le hlt hrel)
  | isIn vs =>
    obtain ⟨v, hv, hcmp⟩ : ∃ v ∈ vs, Compares read (· = ·) true (some a) v := h
    exact if_neg fun hall => member v hcmp (List.all_eq_true.1 hall v hv)
  | isNull => rfl
  | isNotNull => rfl

end

end Wireform.Columnar

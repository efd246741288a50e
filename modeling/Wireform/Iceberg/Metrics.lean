/-
  What file metrics say about the rows of a file.

  * `Expression.Holds`: when a row satisfies an expression; a comparison with a
    null, with no number or with a literal of another type is not satisfied;
  * `CorrectMetrics`: counts and bounds that are right for given rows;
  * `InclusiveSafe`, `StrictSafe`: expressions whose evaluation runs into no defect;
  * `literalBytes_meaning`: the bytes of a literal stand for what the literal does.
-/
import Wireform.Iceberg.Expression

namespace Wireform.Iceberg

open Columnar

/-! ## Rows -/

/-- A cell is null, no number, or a value. -/
abbrev Cell := Option (Option Scalar)

/-- A row, by field id. -/
abbrev Row := Int → Cell

/-- What a literal stands for in a column of the type, if it can stand there. -/
def literalMeaning : IcebergType → Literal → Option (Option Scalar)
  | .boolean, .bool b => some (some (.truth b))
  | .int, .int n | .date, .int n => some (some (rational n.toInt))
  | .long, .long n | .timestamp, .long n | .timestampTz, .long n | .timestampNs, .long n | .timestampTzNs, .long n
  | .time, .long n => some (some (rational n.toInt))
  | .float, .float bits => some ((Ieee.binary32.value bits.toNat).map .number)
  | .double, .double bits => some ((Ieee.binary64.value bits.toNat).map .number)
  | .string, .string t => some (some (.bytes (textBytes t)))
  | .binary, .bytes b | .fixed _, .bytes b | .uuid, .bytes b => some (some (.bytes b))
  | _, _ => none

/-- The types whose values are byte strings. -/
def ByteLike : IcebergType → Prop
  | .string | .binary | .fixed _ | .uuid => True
  | _ => False

/-- A value and a literal compare so. -/
def Compares (rel : Scalar → Scalar → Prop) (ty : IcebergType) (cell : Cell) (lit : Literal) : Prop :=
  ∃ x y, cell = some (some x) ∧ literalMeaning ty lit = some (some y) ∧ rel x y

/-- The value is a byte string with the prefix. -/
def HasPrefix (ty : IcebergType) (cell : Cell) (lit : Literal) : Prop :=
  ∃ bs pre, ByteLike ty ∧ cell = some (some (.bytes bs)) ∧ literalRawBytes lit = some pre ∧ pre <+: bs

/-- The cell satisfies an operation with literals. -/
def Satisfies (ty : IcebergType) (cell : Cell) (lits : List Literal) : PredicateOp → Prop
  | .isNull => cell = none
  | .notNull => cell ≠ none
  | .isNan => cell = some none
  | .notNan => ∃ x, cell = some (some x)
  | .eq => ∃ lit, lits.head? = some lit ∧ Compares (· = ·) ty cell lit
  | .notEq => cell ≠ none ∧ ∃ lit, lits.head? = some lit ∧ ¬ Compares (· = ·) ty cell lit
  | .lt => ∃ lit, lits.head? = some lit ∧ Compares (· < ·) ty cell lit
  | .ltEq => ∃ lit, lits.head? = some lit ∧ Compares (· ≤ ·) ty cell lit
  | .gt => ∃ lit, lits.head? = some lit ∧ Compares (· > ·) ty cell lit
  | .gtEq => ∃ lit, lits.head? = some lit ∧ Compares (· ≥ ·) ty cell lit
  | .isIn => ∃ lit ∈ lits, Compares (· = ·) ty cell lit
  | .notIn => cell ≠ none ∧ ∀ lit ∈ lits, ¬ Compares (· = ·) ty cell lit
  | .startsWith => ∃ lit, lits.head? = some lit ∧ HasPrefix ty cell lit
  | .notStartsWith => cell ≠ none ∧ ∃ lit, lits.head? = some lit ∧ ¬ HasPrefix ty cell lit

def Predicate.Holds (schema : Schema) (row : Row) (p : Predicate) : Prop :=
  ∃ fid ty, lookupField schema p.predField = some (fid, ty) ∧ Satisfies ty (row fid) p.predLits p.predOp

def Expression.Holds (schema : Schema) (row : Row) : Expression → Prop
  | .true => True
  | .false => False
  | .and a b => a.Holds schema row ∧ b.Holds schema row
  | .or a b => a.Holds schema row ∨ b.Holds schema row
  | .not e => ¬ e.Holds schema row
  | .predicate p => p.Holds schema row

/-! ## Metrics -/

/-- The metrics of a column are right: counts are exact where they are there, and
    bounds are values around those that are numbers. -/
structure CorrectColumn (fm : FileMetrics) (rows : List Row) (fid : Int) (ty : IcebergType) : Prop where
  nulls : ∀ c, AssocMap.lookup fid fm.fmNullCounts = some c → c = (rows.countP fun r => (r fid).isNone : Nat)
  values : ∀ c, AssocMap.lookup fid fm.fmValueCounts = some c → c = (rows.length : Nat)
  nans : ∀ c, AssocMap.lookup fid fm.fmNanCounts = some c → c = (rows.countP fun r => (r fid).elim false Option.isNone : Nat)
  lower : ∀ lb, AssocMap.lookup fid fm.fmLowerBounds = some lb → ty ≠ .other → ∃ B, meaning ty lb = some B ∧
    ∀ r ∈ rows, ∀ x, r fid = some (some x) → ∃ b, B = some b ∧ b ≤ x
  upper : ∀ ub, AssocMap.lookup fid fm.fmUpperBounds = some ub → ty ≠ .other → ∃ B, meaning ty ub = some B ∧
    ∀ r ∈ rows, ∀ x, r fid = some (some x) → ∃ b, B = some b ∧ x ≤ b

def CorrectMetrics (schema : Schema) (fm : FileMetrics) (rows : List Row) : Prop :=
  ∀ name fid ty, lookupField schema name = some (fid, ty) → CorrectColumn fm rows fid ty

/-! ## Safe expressions -/

/-- What stands under an odd number of negations holds of every row. -/
def Expression.InclusiveSafe (schema : Schema) (rows : List Row) : Expression → Bool → Prop
  | .true, _ | .false, _ => True
  | .and a b, negated | .or a b, negated => a.InclusiveSafe schema rows negated ∧ b.InclusiveSafe schema rows negated
  | .not e, negated => e.InclusiveSafe schema rows (!negated)
  | .predicate p, negated => negated = Bool.true → ∀ r ∈ rows, p.Holds schema r

/-- A comparison that is evaluated strictly is over values only, those above not
    with a literal that is no number, and a prefix is of byte strings. -/
def OpSafe (ty : IcebergType) (cells : List Cell) (lits : List Literal) : PredicateOp → Prop
  | .eq | .lt | .ltEq => ∀ c ∈ cells, ∃ x, c = some (some x)
  | .gt | .gtEq => (∀ c ∈ cells, ∃ x, c = some (some x)) ∧ ∀ lit, lits.head? = some lit → literalMeaning ty lit ≠ some none
  | .startsWith => (∀ c ∈ cells, ∃ x, c = some (some x)) ∧ ByteLike ty
  | _ => True

/-- The comparisons outside of negations are safe, and what is negated is so for
    inclusive evaluation. -/
def Expression.StrictSafe (schema : Schema) (rows : List Row) : Expression → Prop
  | .true | .false => True
  | .and a b | .or a b => a.StrictSafe schema rows ∧ b.StrictSafe schema rows
  | .not e => e.InclusiveSafe schema rows Bool.false
  | .predicate p => ∀ fid ty, lookupField schema p.predField = some (fid, ty) →
    OpSafe ty (rows.map fun r => r fid) p.predLits p.predOp

/-! ## Literals -/

section
variable {ty : IcebergType} {lit : Literal} {n k : Nat}

theorem intBytes_succ (k : Nat) (n : Int) : intBytes (k + 1) n = UInt8.ofNat (n % 256).toNat :: intBytes k (n / 256) := by
  unfold intBytes
  rw [List.range_succ_eq_map, List.map_cons, List.map_map]
  congr 1
  · simp
  · refine List.map_congr_left fun i _ => ?_
    rw [Function.comp_apply, pow_succ', Int.ediv_ediv_of_nonneg (by omega)]

theorem readLE_intBytes (k : Nat) (n : Int) : (readLE (intBytes k n) : Int) = n % 256 ^ k := by
  induction k generalizing n with
  | zero => simp [intBytes, readLE]
  | succ k ih =>
    have hbyte : ((UInt8.ofNat (n % 256).toNat).toNat : Int) = n % 256 := by
      rw [UInt8.toNat_ofNat']
      omega
    have hcons : (readLE (intBytes (k + 1) n) : Int) = n % 256 + 256 * (readLE (intBytes k (n / 256)) : Int) := by
      rw [intBytes_succ, readLE, List.foldr_cons, Nat.cast_add, hbyte, Nat.cast_mul]
      rfl
    have hpos : (0 : Int) < 256 ^ k := by positivity
    have hlow := Int.emod_nonneg (n / 256) hpos.ne'
    have hhigh := Int.emod_lt_of_pos (n / 256) hpos
    have hsplit := Int.emod_add_mul_ediv (n / 256) (256 ^ k)
    rw [hcons, ih, pow_succ']
    -- the quotient is that of the rest of the number
    have hwhole : n % 256 + 256 * (n / 256 % 256 ^ k) + 256 * 256 ^ k * (n / 256 / 256 ^ k) = n := by
      calc n % 256 + 256 * (n / 256 % 256 ^ k) + 256 * 256 ^ k * (n / 256 / 256 ^ k)
          = n % 256 + 256 * (n / 256 % 256 ^ k + 256 ^ k * (n / 256 / 256 ^ k)) := by ring
        _ = n := by
          rw [hsplit]
          omega
    exact ((Int.ediv_emod_unique (by omega)).2 ⟨hwhole, by omega, by omega⟩).2.symm

theorem intBytes_length (k : Nat) (n : Int) : (intBytes k n).length = k := by
  rw [intBytes, List.length_map, List.length_range]

theorem intLE_length (n : Int) : (intLE n).length = 4 := intBytes_length 4 n

theorem longLE_length (n : Int) : (longLE n).length = 8 := intBytes_length 8 n

theorem decodeInt32_intLE (n : Int32) : decodeInt32 (intLE n.toInt) = .ok n.toInt := by
  have hread := readLE_intBytes 4 n.toInt
  have hlow := n.le_toInt
  have hhigh := n.toInt_lt
  have hsigned : signed 4 (readLE (intLE n.toInt)) = n.toInt := by
    unfold signed intLE
    split_ifs <;> omega
  rw [decodeInt32, if_pos (intLE_length _), hsigned]

theorem decodeInt64_longLE (n : Int64) : decodeInt64 (longLE n.toInt) = .ok n.toInt := by
  have hread := readLE_intBytes 8 n.toInt
  have hlow := n.le_toInt
  have hhigh := n.toInt_lt
  have hsigned : signed 8 (readLE (longLE n.toInt)) = n.toInt := by
    unfold signed longLE
    split_ifs <;> omega
  rw [decodeInt64, if_pos (longLE_length _), hsigned]

theorem decodeFloat_intLE (bits : UInt32) : decodeFloat (intLE (signed 4 bits.toNat)) = .ok bits.toNat := by
  have hread := readLE_intBytes 4 (signed 4 bits.toNat)
  have hhigh := bits.toNat_lt
  have hbits : readLE (intLE (signed 4 bits.toNat)) = bits.toNat := by
    unfold intLE
    unfold signed at hread ⊢
    split_ifs at hread ⊢ <;> omega
  rw [decodeFloat, if_pos (intLE_length _), hbits]

theorem decodeDouble_longLE (bits : UInt64) : decodeDouble (longLE (signed 8 bits.toNat)) = .ok bits.toNat := by
  have hread := readLE_intBytes 8 (signed 8 bits.toNat)
  have hhigh := bits.toNat_lt
  have hbits : readLE (longLE (signed 8 bits.toNat)) = bits.toNat := by
    unfold longLE
    unfold signed at hread ⊢
    split_ifs at hread ⊢ <;> omega
  rw [decodeDouble, if_pos (longLE_length _), hbits]

theorem decodeBool_flag (b : Bool) : decodeBool [if b then 1 else 0] = .ok b := by
  cases b <;> rfl

/-- The bytes of a literal stand for what the literal does. -/
theorem literalBytes_meaning (ty : IcebergType) (lit : Literal) :
    (literalBytes ty lit).bind (meaning ty) = literalMeaning ty lit := by
  cases ty <;> cases lit <;>
    simp [literalBytes, literalMeaning, meaning, decodeBool_flag, decodeInt32_intLE, decodeInt64_longLE, decodeFloat_intLE,
      decodeDouble_longLE, Except.toOption]

end

end Wireform.Iceberg

/-
  Encoding dynamic messages (`encodeDynamic` of `Proto.Dynamic`).

  Fields are written in the order of their numbers, the values of a repeated field
  one after the other.

  * `ReadsBytes`: a decoder reads a value from its bytes wherever they stand, with
    the rules for the wire primitives and for what follows;
  * `Regular`: the messages that `decodeDynamic` makes: values as they stand on the
    wire, and lists of at least two of them;
  * `foldl_appendValue`: adding the values of a regular message one by one, in the
    order in which they are written, gives the message;
  * `decode_encode_decode`: so decoding what was encoded from a decoded message
    gives it back.
-/
import Wireform.Proto.ParseTable
import Wireform.Proto.VarintEncode

namespace Wireform.Proto

open AssocMap

/-! ## Encoding -/

def putTag (fn : Int) (wt : WireType) : ByteString :=
  if fieldTag fn wt < 0x80 then [(fieldTag fn wt).toUInt8] else putVarint (fieldTag fn wt)

def putFixed32 (v : UInt32) : ByteString := leBytes 4 v.toNat

def putFixed64 (v : UInt64) : ByteString := leBytes 8 v.toNat

def putLengthDelimited (bytes : ByteString) : ByteString := putVarint (UInt64.ofNat bytes.length) ++ bytes

mutual

def encodeDynamic : DynamicMessage → ByteString
  | .mk fs _ => encodeFields fs

/-- `Map.foldlWithKey' encodeField mempty`. -/
def encodeFields : List (Int × DynamicValue) → ByteString
  | [] => []
  | (fn, v) :: fs => encodeDynValue fn v ++ encodeFields fs

def encodeDynValue (fn : Int) : DynamicValue → ByteString
  | .dynVarint v => putTag fn .varint ++ putVarint v
  | .dynSVarint v => putTag fn .varint ++ putVarint v.toUInt64
  | .dynFixed32 v => putTag fn .bit32 ++ putFixed32 v
  | .dynFixed64 v => putTag fn .bit64 ++ putFixed64 v
  | .dynFloat bits => putTag fn .bit32 ++ putFixed32 bits
  | .dynDouble bits => putTag fn .bit64 ++ putFixed64 bits
  | .dynBool b => putTag fn .varint ++ putVarint (if b then 1 else 0)
  | .dynString text => putTag fn .lengthDelimited ++ putLengthDelimited text
  | .dynBytes bytes => putTag fn .lengthDelimited ++ putLengthDelimited bytes
  | .dynEnum n => putTag fn .varint ++ putVarint (UInt64.ofInt n)
  | .dynMessage m => putTag fn .lengthDelimited ++ putLengthDelimited (encodeDynamic m)
  | .dynRepeated vs => encodeRepeated fn vs
  | .dynMap _ => []

/-- `foldMap (encodeDynValue fn)`. -/
def encodeRepeated (fn : Int) : List DynamicValue → ByteString
  | [] => []
  | v :: vs => encodeDynValue fn v ++ encodeRepeated fn vs

end

attribute [grind =] encodeDynValue

theorem encodeFields_eq (fs : List (Int × DynamicValue)) :
    encodeFields fs = fs.flatMap fun e => encodeDynValue e.1 e.2 := by
  induction fs with
  | nil => rw [encodeFields, List.flatMap_nil]
  | cons e fs ih => rw [encodeFields, ih, List.flatMap_cons]

theorem encodeRepeated_eq (fn : Int) (vs : List DynamicValue) : encodeRepeated fn vs = vs.flatMap (encodeDynValue fn) := by
  induction vs with
  | nil => rw [encodeRepeated, List.flatMap_nil]
  | cons v vs ih => rw [encodeRepeated, ih, List.flatMap_cons]

theorem putTag_eq (fn : Int) (wt : WireType) : putTag fn wt = putVarint (fieldTag fn wt) := by
  unfold putTag
  split
  · rw [putVarint, if_pos ‹_›]
  · rfl

/-! ## Reading what was written -/

section
variable {α β : Type}

/-- The decoder reads the value from its bytes, whatever stands around them. -/
def ReadsBytes (d : Decoder α) (bytes : ByteString) (a : α) : Prop :=
  ∀ pre rest, (pre ++ (bytes ++ rest)).length < 2 ^ 63 →
    d (pre ++ (bytes ++ rest)) (pre.length : Nat) = .ok a ((pre ++ bytes).length : Nat)

theorem ReadsBytes.bind {d : Decoder α} {bytes : ByteString} {a : α} (h : ReadsBytes d bytes a)
    {f : α → Decoder β} {bytes' : ByteString} {b : β} (hf : ReadsBytes (f a) bytes' b) :
    ReadsBytes (fun bs off => (d bs off).bind fun a off' => f a bs off') (bytes ++ bytes') b := by
  intro pre rest hlen
  rw [List.append_assoc] at hlen ⊢
  have h1 := h pre (bytes' ++ rest) hlen
  have h2 := hf (pre ++ bytes) rest (by rwa [List.append_assoc])
  rw [List.append_assoc] at h2
  simp only [h1, Result.bind_ok, h2, List.append_assoc]

/-- A decoder that consumes nothing. -/
theorem ReadsBytes.pure (a : α) : ReadsBytes (fun _ off => .ok a off) [] a := by
  intro pre rest _
  rw [List.append_nil]

theorem ReadsBytes.map {d : Decoder α} {bytes : ByteString} {a : α} (h : ReadsBytes d bytes a) (f : α → β) :
    ReadsBytes (fun bs off => (d bs off).bind fun a off' => .ok (f a) off') bytes (f a) := by
  have hmap := h.bind (f := fun a _ off => .ok (f a) off) (ReadsBytes.pure (f a))
  rwa [List.append_nil] at hmap

theorem inside_append {pre bytes rest : ByteString} (h : (pre ++ (bytes ++ rest)).length < 2 ^ 63) :
    Inside (pre ++ (bytes ++ rest)) (pre.length : Nat) := by
  refine ⟨Int.natCast_nonneg _, ?_, ?_⟩
  · unfold bsLen
    rw [List.length_append]
    omega
  · unfold bsLen
    omega

theorem reads_putVarint (n : UInt64) : ReadsBytes getVarint (putVarint n) n := by
  intro pre rest h
  rw [(inside_append h).getVarint_eq, Int.toNat_natCast, List.drop_left, putVarint_eq, getVarintLazy_leb128, ofLazy]
  congr 1
  simp only [bsLen, List.length_append]
  omega

theorem readLE_foldr (bs : ByteString) : bs.foldr (fun b acc => b.toNat + 256 * acc) 0 = leValue bs := by
  induction bs with
  | nil => rfl
  | cons b bs ih => rw [List.foldr_cons, ih, leValue_cons]

theorem reads_leBytes {n v : Nat} (hv : v < 256 ^ n) (k : Nat → α) : ReadsBytes (getFixed n k) (leBytes n v) (k v) := by
  intro pre rest h
  have hin := inside_append h
  have hend : (pre.length : Int) + n ≤ bsLen (pre ++ (leBytes n v ++ rest)) := by
    simp only [bsLen, List.length_append, length_leBytes]
    omega
  have hadd : addInt (pre.length : Nat) n = pre.length + n := hin.add (Int.natCast_nonneg n) hend
  have hread : readLE n (pre ++ (leBytes n v ++ rest)) (pre.length : Nat) = some v := by
    rw [readLE, if_pos ⟨Int.natCast_nonneg _, hend⟩, Int.toNat_natCast, List.drop_left, readLE_foldr]
    have htake : (leBytes n v ++ rest).take n = leBytes n v := List.take_left' (length_leBytes n v)
    rw [htake, leValue_leBytes, Nat.mod_eq_of_lt hv]
  unfold getFixed
  rw [hadd, if_neg (by omega), hread]
  simp [length_leBytes]

theorem reads_putFixed32 (v : UInt32) : ReadsBytes getFixed32 (putFixed32 v) v := by
  have h := reads_leBytes (v := v.toNat) (n := 4) v.toNat_lt UInt32.ofNat
  rwa [UInt32.ofNat_toNat] at h

theorem reads_putFixed64 (v : UInt64) : ReadsBytes getFixed64 (putFixed64 v) v := by
  have h := reads_leBytes (v := v.toNat) (n := 8) v.toNat_lt UInt64.ofNat
  rwa [UInt64.ofNat_toNat] at h

/-- A slice and its bytes. -/
theorem reads_putLengthDelimited (bytes : ByteString) (f : ByteString → α) :
    ReadsBytes (fun bs off => (getLengthDelimited bs off).bind fun s off' =>
      withSlice bs s fun bytes => .ok (f bytes) off') (putLengthDelimited bytes) (f bytes) := by
  intro pre rest h
  have hassoc : pre ++ (putLengthDelimited bytes ++ rest) =
      pre ++ (putVarint (UInt64.ofNat bytes.length) ++ (bytes ++ rest)) := by
    rw [putLengthDelimited, List.append_assoc]
  rw [hassoc] at h ⊢
  have hsmall : bytes.length < 2 ^ 63 := by
    simp only [List.length_append] at h
    omega
  have hword : (UInt64.ofNat bytes.length).toNat = bytes.length := UInt64.toNat_ofNat_of_lt' (by show _ < 2 ^ 64; omega)
  have hof : ofWord (UInt64.ofNat bytes.length) = bytes.length := by rw [ofWord_lt (by omega), hword]
  have hread := reads_putVarint (UInt64.ofNat bytes.length) pre (bytes ++ rest) h
  generalize hv : putVarint (UInt64.ofNat bytes.length) = v at h hread ⊢
  have hin : Inside (pre ++ (v ++ (bytes ++ rest))) ((pre ++ v).length : Nat) := by
    rw [← List.append_assoc] at h ⊢
    exact inside_append h
  have hend : ((pre ++ v).length : Int) + bytes.length ≤ bsLen (pre ++ (v ++ (bytes ++ rest))) := by
    simp only [bsLen, List.length_append]
    omega
  have hadd : addInt ((pre ++ v).length : Nat) bytes.length = (pre ++ v).length + bytes.length :=
    hin.add (Int.natCast_nonneg _) hend
  have hdrop : (pre ++ (v ++ (bytes ++ rest))).drop (pre ++ v).length = bytes ++ rest := by
    rw [← List.append_assoc, List.drop_left]
  simp only [getLengthDelimited, hread, Result.bind_ok, hof, hadd]
  rw [if_neg (by omega), if_neg (by omega), Result.bind_ok, withSlice,
    if_pos ⟨Int.natCast_nonneg _, Int.natCast_nonneg _, hend⟩, Slice.bytes]
  simp only [Int.toNat_natCast, hdrop, List.take_left, putLengthDelimited, hv]
  congr 1
  simp only [List.length_append]
  omega

end

/-- A result of two steps comes from a result of the first. -/
theorem Result.of_bind {α β : Type} {r : Result α} {k : α → Int → Result β} {b : β} {off : Int}
    (h : r.bind k = .ok b off) : ∃ a off', r = .ok a off' ∧ k a off' = .ok b off := by
  cases r with
  | ok a off' => exact ⟨a, off', rfl, h⟩
  | fail e => cases h
  | fault => cases h
  | more => cases h

/-! ## Values as they stand on the wire -/

/-- The values that `decodeWireValue` makes. -/
inductive Single : DynamicValue → Prop where
  | varint (v : UInt64) : Single (.dynVarint v)
  | fixed32 (v : UInt32) : Single (.dynFixed32 v)
  | fixed64 (v : UInt64) : Single (.dynFixed64 v)
  | bytes (bytes : ByteString) : Single (.dynBytes bytes)

/-- The field numbers that tags hold. -/
def FieldNumber (fn : Int) : Prop := 0 < fn ∧ fn < 2 ^ 61

variable {v : DynamicValue}

theorem plain_of_decode {n : Nat} {wt : WireType} {bs : ByteString} {off off' : Int}
    (h : decodeWireValue n wt bs off = .ok v off') : Single v := by
  unfold decodeWireValue at h
  cases wt with
  | varint =>
    obtain ⟨a, off'', -, hk⟩ := Result.of_bind h
    cases hk
    exact .varint a
  | bit64 =>
    obtain ⟨a, off'', -, hk⟩ := Result.of_bind h
    cases hk
    exact .fixed64 a
  | bit32 =>
    obtain ⟨a, off'', -, hk⟩ := Result.of_bind h
    cases hk
    exact .fixed32 a
  | lengthDelimited =>
    obtain ⟨s, off'', -, hk⟩ := Result.of_bind h
    unfold withSlice at hk
    split at hk
    · cases hk
      exact .bytes _
    · cases hk
  | startGroup =>
    obtain ⟨-, off'', -, hk⟩ := Result.of_bind h
    cases hk
    exact .bytes _
  | endGroup =>
    obtain ⟨-, off'', -, hk⟩ := Result.of_bind h
    cases hk
    exact .bytes _

theorem fieldNumber_of_decode {w : UInt64} {fn : Int} {wt : WireType} (h : decodeTag w = some ⟨fn, wt⟩) :
    FieldNumber fn := by
  obtain ⟨-, rfl, h0⟩ := (decodeTag_iff w fn wt).1 h
  have := w.toNat_lt
  unfold FieldNumber
  omega

theorem encodeDynValue_pos (fn : Int) (hv : Single v) : 0 < (encodeDynValue fn v).length := by
  have htag (wt : WireType) : 0 < (putTag fn wt).length := by
    rw [putTag_eq, putVarint_eq]
    exact length_leb128_pos _
  cases hv <;> rw [encodeDynValue, List.length_append] <;> exact Nat.add_pos_left (htag _) _

theorem reads_putTag {fn : Int} (hfn : FieldNumber fn) (wt : WireType) :
    ReadsBytes getTag (putTag fn wt) ⟨fn, wt⟩ := by
  intro pre rest h
  rw [putTag_eq] at h ⊢
  rw [getTag, reads_putVarint _ pre rest h, Result.bind_ok, (fieldTag_eq_iff hfn.1 hfn.2 wt _).1 rfl]

/-- A tag and a value, as one step of the loop reads them. -/
theorem reads_entry {fn : Int} (hfn : FieldNumber fn) (hv : Single v) (n : Nat) :
    ReadsBytes (fun bs off => (getTag bs off).bind fun tag off' =>
      (decodeWireValue n tag.wireType bs off').bind fun v off'' => .ok (tag.fieldNumber, v) off'')
      (encodeDynValue fn v) (fn, v) := by
  cases hv with
  | varint v =>
    rw [encodeDynValue]
    refine (reads_putTag hfn .varint).bind ?_
    exact ((reads_putVarint v).map DynamicValue.dynVarint).map fun v => (fn, v)
  | fixed32 v =>
    rw [encodeDynValue]
    refine (reads_putTag hfn .bit32).bind ?_
    exact ((reads_putFixed32 v).map DynamicValue.dynFixed32).map fun v => (fn, v)
  | fixed64 v =>
    rw [encodeDynValue]
    refine (reads_putTag hfn .bit64).bind ?_
    exact ((reads_putFixed64 v).map DynamicValue.dynFixed64).map fun v => (fn, v)
  | bytes bytes =>
    rw [encodeDynValue]
    refine (reads_putTag hfn .lengthDelimited).bind ?_
    exact (reads_putLengthDelimited bytes DynamicValue.dynBytes).map fun v => (fn, v)

/-! ## Regular messages -/

/-- Some values of one field, as the map holds them. -/
inductive Collected : DynamicValue → Prop where
  | one {v : DynamicValue} (hv : Single v) : Collected v
  | more {a b : DynamicValue} {vs : List DynamicValue} (h : ∀ v ∈ a :: b :: vs, Single v) :
    Collected (.dynRepeated (a :: b :: vs))

/-- The field maps that `decodeDynLoop` builds. -/
structure Regular (fs : AssocMap Int DynamicValue) : Prop where
  ascending : Ascending fs
  numbers : ∀ e ∈ fs, FieldNumber e.1
  values : ∀ e ∈ fs, Collected e.2

theorem regular_nil : Regular [] := ⟨List.Pairwise.nil, by simp, by simp⟩

theorem appendValue_collected {fn : Int} {val : DynamicValue} (hval : Single val) {acc : AssocMap Int DynamicValue}
    (h : Regular acc) : ∃ v, Collected v ∧ appendValue fn val acc = insert fn v acc := by
  unfold appendValue
  cases hl : lookup fn acc with
  | none => exact ⟨val, .one hval, rfl⟩
  | some old =>
    cases h.values _ (mem_of_lookup hl) with
    | one hold =>
      cases hold with
      | varint v => exact ⟨_, .more (by simp [hval, Single.varint]), rfl⟩
      | fixed32 v => exact ⟨_, .more (by simp [hval, Single.fixed32]), rfl⟩
      | fixed64 v => exact ⟨_, .more (by simp [hval, Single.fixed64]), rfl⟩
      | bytes bytes => exact ⟨_, .more (by simp [hval, Single.bytes]), rfl⟩
    | more hall =>
      refine ⟨_, .more ?_, rfl⟩
      intro v hv
      rcases List.mem_append.1 (show v ∈ (_ :: _ :: _) ++ [val] from hv) with hv | hv
      · exact hall v hv
      · exact List.mem_singleton.1 hv ▸ hval

theorem Regular.appendValue {fn : Int} (hfn : FieldNumber fn) {val : DynamicValue} (hval : Single val)
    {acc : AssocMap Int DynamicValue} (h : Regular acc) : Regular (appendValue fn val acc) := by
  obtain ⟨v, hv, heq⟩ := appendValue_collected hval h
  rw [heq]
  refine ⟨h.ascending.insert fn v, ?_, ?_⟩
  · intro e he
    rcases mem_insert he with rfl | he
    · exact hfn
    · exact h.numbers e he
  · intro e he
    rcases mem_insert he with rfl | he
    · exact hv
    · exact h.values e he

theorem fieldNumber_of_getTagOrU {bs : ByteString} {off off' : Int} {fn : Int} {wt : WireType}
    (h : getTagOrU bs off = .ok (some ⟨fn, wt⟩) off') : FieldNumber fn := by
  unfold getTagOrU at h
  split at h
  · cases h
  · obtain ⟨tag, off1, htag, hk⟩ := Result.of_bind h
    cases hk
    obtain ⟨w, off2, -, hk⟩ := Result.of_bind htag
    cases hd : decodeTag w with
    | none =>
      rw [hd] at hk
      cases hk
    | some tag =>
      rw [hd] at hk
      cases hk
      exact fieldNumber_of_decode hd

/-- **What the loop returns is regular.** -/
theorem regular_of_decode {bs : ByteString} : ∀ (n : Nat) {acc : AssocMap Int DynamicValue} {off off' : Int}
    {m : DynamicMessage}, Regular acc → decodeDynLoop.go n acc bs off = .ok m off' →
    ∃ fs, m = .mk fs [] ∧ Regular fs
  | 0, acc, off, off', m, _, h => by cases h
  | n + 1, acc, off, off', m, hacc, h => by
    obtain ⟨tag, off1, htag, h⟩ := Result.of_bind (show Result.bind _ _ = _ from h)
    cases tag with
    | none =>
      cases h
      exact ⟨acc, rfl, hacc⟩
    | some tag =>
      obtain ⟨val, off2, hval, h⟩ := Result.of_bind (show Result.bind _ _ = _ from h)
      exact regular_of_decode n (hacc.appendValue (fieldNumber_of_getTagOrU htag) (plain_of_decode hval)) h

/-! ## Adding the values again -/

/-- The values of a field, one entry each. -/
def entriesOf (fn : Int) : DynamicValue → List (Int × DynamicValue)
  | .dynRepeated vs => vs.map fun v => (fn, v)
  | v => [(fn, v)]

attribute [grind =] entriesOf

/-- Everything that is written, in order. -/
def entries (fs : AssocMap Int DynamicValue) : List (Int × DynamicValue) := fs.flatMap fun e => entriesOf e.1 e.2

def appendEntry (acc : AssocMap Int DynamicValue) (e : Int × DynamicValue) : AssocMap Int DynamicValue :=
  appendValue e.1 e.2 acc

theorem entriesOf_plain {fn : Int} (hv : Single v) : entriesOf fn v = [(fn, v)] := by
  cases hv <;> rfl

theorem encode_entriesOf {fn : Int} (hv : Collected v) :
    encodeDynValue fn v = (entriesOf fn v).flatMap fun e => encodeDynValue e.1 e.2 := by
  cases hv with
  | one hv => rw [entriesOf_plain hv, List.flatMap_singleton]
  | more h => rw [encodeDynValue, encodeRepeated_eq, entriesOf, List.flatMap_map]

theorem encodeFields_entries {fs : AssocMap Int DynamicValue} (h : ∀ e ∈ fs, Collected e.2) :
    encodeFields fs = (entries fs).flatMap fun e => encodeDynValue e.1 e.2 := by
  rw [encodeFields_eq, entries, List.flatMap_assoc]
  exact List.flatMap_congr fun e he => encode_entriesOf (h e he)

theorem Regular.plain_entries {fs : AssocMap Int DynamicValue} (h : Regular fs) :
    ∀ e ∈ entries fs, FieldNumber e.1 ∧ Single e.2 := by
  intro e he
  obtain ⟨⟨fn, v⟩, hmem, he⟩ := List.mem_flatMap.1 he
  have hfn := h.numbers _ hmem
  cases h.values _ hmem with
  | one hv =>
    rw [entriesOf_plain hv] at he
    obtain rfl := List.mem_singleton.1 he
    exact ⟨hfn, hv⟩
  | more hall =>
    obtain ⟨v, hv, rfl⟩ := List.mem_map.1 he
    exact ⟨hfn, hall v hv⟩

theorem lookup_snoc {fn : Int} {v : DynamicValue} : ∀ {acc : AssocMap Int DynamicValue}, (∀ e ∈ acc, e.1 < fn) →
    lookup fn (acc ++ [(fn, v)]) = some v
  | [], _ => by rw [List.nil_append, lookup, if_pos rfl]
  | e :: acc, h => by
    have hlt := h e List.mem_cons_self
    rw [List.cons_append, lookup, if_neg hlt.ne', lookup_snoc fun e' he' => h e' (List.mem_cons_of_mem _ he')]

theorem lookup_above {fn : Int} : ∀ {acc : AssocMap Int DynamicValue}, (∀ e ∈ acc, e.1 < fn) → lookup fn acc = none
  | [], _ => rfl
  | e :: acc, h => by
    have hlt := h e List.mem_cons_self
    rw [lookup, if_neg hlt.ne', lookup_above fun e' he' => h e' (List.mem_cons_of_mem _ he')]

theorem insert_above {fn : Int} (v : DynamicValue) : ∀ {acc : AssocMap Int DynamicValue}, (∀ e ∈ acc, e.1 < fn) →
    insert fn v acc = acc ++ [(fn, v)]
  | [], _ => rfl
  | e :: acc, h => by
    have hlt := h e List.mem_cons_self
    rw [AssocMap.insert, if_neg hlt.ne', if_neg hlt.not_gt, insert_above v fun e' he' => h e' (List.mem_cons_of_mem _ he')]
    rfl

theorem insert_snoc {fn : Int} (v v' : DynamicValue) : ∀ {acc : AssocMap Int DynamicValue}, (∀ e ∈ acc, e.1 < fn) →
    insert fn v (acc ++ [(fn, v')]) = acc ++ [(fn, v)]
  | [], _ => by rw [List.nil_append, AssocMap.insert, if_pos rfl, List.nil_append]
  | e :: acc, h => by
    have hlt := h e List.mem_cons_self
    rw [List.cons_append, AssocMap.insert, if_neg hlt.ne', if_neg hlt.not_gt,
      insert_snoc v v' fun e' he' => h e' (List.mem_cons_of_mem _ he')]
    rfl

section
variable {fn : Int} {acc : AssocMap Int DynamicValue}

theorem appendValue_first (h : ∀ e ∈ acc, e.1 < fn) (v : DynamicValue) :
    appendValue fn v acc = acc ++ [(fn, v)] := by
  rw [appendValue, lookup_above h]
  exact insert_above v h

theorem appendValue_second (h : ∀ e ∈ acc, e.1 < fn) {a : DynamicValue} (ha : Single a) (b : DynamicValue) :
    appendValue fn b (acc ++ [(fn, a)]) = acc ++ [(fn, .dynRepeated [a, b])] := by
  rw [appendValue, lookup_snoc h]
  cases ha <;> exact insert_snoc _ _ h

theorem appendValue_next (h : ∀ e ∈ acc, e.1 < fn) (vs : List DynamicValue) (v : DynamicValue) :
    appendValue fn v (acc ++ [(fn, .dynRepeated vs)]) = acc ++ [(fn, .dynRepeated (vs ++ [v]))] := by
  rw [appendValue, lookup_snoc h]
  exact insert_snoc _ _ h

theorem foldl_next (h : ∀ e ∈ acc, e.1 < fn) : ∀ (more vs : List DynamicValue),
    (more.map fun v => (fn, v)).foldl appendEntry (acc ++ [(fn, .dynRepeated vs)]) =
      acc ++ [(fn, .dynRepeated (vs ++ more))]
  | [], vs => by rw [List.append_nil]; rfl
  | v :: more, vs => by
    rw [List.map_cons, List.foldl_cons, appendEntry, appendValue_next h, foldl_next h more, List.append_assoc]
    rfl

/-- The values of a field that comes last. -/
theorem foldl_entriesOf (h : ∀ e ∈ acc, e.1 < fn) {v : DynamicValue} (hv : Collected v) :
    (entriesOf fn v).foldl appendEntry acc = acc ++ [(fn, v)] := by
  cases hv with
  | one hv =>
    rw [entriesOf_plain hv]
    exact appendValue_first h v
  | @more a b vs hall =>
    have ha : Single a := hall a List.mem_cons_self
    rw [entriesOf, List.map_cons, List.map_cons, List.foldl_cons, List.foldl_cons, appendEntry, appendEntry,
      appendValue_first h, appendValue_second h ha, foldl_next h]
    rfl

end

/-- **Adding every value of a regular message again**, behind fields with smaller
    numbers. -/
theorem foldl_appendValue : ∀ (fs acc : AssocMap Int DynamicValue), (∀ e ∈ fs, Collected e.2) → Ascending (acc ++ fs) →
    (entries fs).foldl appendEntry acc = acc ++ fs
  | [], acc, _, _ => by rw [List.append_nil]; rfl
  | (fn, v) :: fs, acc, hcol, hasc => by
    have hlt : ∀ e ∈ acc, e.1 < fn := fun e he => (List.pairwise_append.1 hasc).2.2 e he _ List.mem_cons_self
    have hassoc : acc ++ (fn, v) :: fs = (acc ++ [(fn, v)]) ++ fs := by rw [List.append_assoc]; rfl
    have ih := foldl_appendValue fs (acc ++ [(fn, v)]) (fun e he => hcol e (List.mem_cons_of_mem _ he))
      (hassoc ▸ hasc)
    rw [entries, List.flatMap_cons, List.foldl_append, foldl_entriesOf hlt (hcol _ List.mem_cons_self), hassoc]
    exact ih

/-! ## Decoding what was encoded -/

/-- The loop adds the entries one by one. -/
theorem decodeDynLoop_entries : ∀ (es : List (Int × DynamicValue)) (n : Nat) (acc : AssocMap Int DynamicValue)
    (pre : ByteString), (∀ e ∈ es, FieldNumber e.1 ∧ Single e.2) → es.length < n →
    (pre ++ es.flatMap fun e => encodeDynValue e.1 e.2).length < 2 ^ 63 →
    decodeDynLoop.go n acc (pre ++ es.flatMap fun e => encodeDynValue e.1 e.2) (pre.length : Nat) =
      .ok (.mk (es.foldl appendEntry acc) []) ((pre ++ es.flatMap fun e => encodeDynValue e.1 e.2).length : Nat)
  | _, 0, _, _, _, hn, _ => absurd hn (Nat.not_lt_zero _)
  | [], n + 1, acc, pre, _, _, _ => by
    have hend : (pre.length : Int) ≥ bsLen (pre ++ []) := by rw [List.append_nil]; exact le_rfl
    show (getTagOrU (pre ++ []) (pre.length : Nat)).bind _ = _
    rw [getTagOrU, if_pos hend, Result.bind_ok]
    simp
  | e :: es, n + 1, acc, pre, hes, hn, hlen => by
    obtain ⟨fn, v⟩ := e
    obtain ⟨hfn, hv⟩ := hes _ List.mem_cons_self
    have hassoc : pre ++ ((fn, v) :: es).flatMap (fun e => encodeDynValue e.1 e.2) =
        pre ++ (encodeDynValue fn v ++ es.flatMap fun e => encodeDynValue e.1 e.2) := by rw [List.flatMap_cons]
    rw [hassoc] at hlen ⊢
    have ih := decodeDynLoop_entries es n (appendValue fn v acc) (pre ++ encodeDynValue fn v)
      (fun e he => hes e (List.mem_cons_of_mem _ he)) (Nat.lt_of_succ_lt_succ hn) (by rwa [List.append_assoc])
    obtain ⟨⟨fn', wt⟩, off1, htag, hk⟩ := Result.of_bind (reads_entry hfn hv n pre _ hlen)
    obtain ⟨v', off2, hval, hk⟩ := Result.of_bind hk
    cases hk
    have hlt : ¬ (pre.length : Int) ≥ bsLen (pre ++ (encodeDynValue fn v ++ es.flatMap fun e => encodeDynValue e.1 e.2)) := by
      have hpos : 0 < (encodeDynValue fn v).length := encodeDynValue_pos fn hv
      simp only [bsLen, List.length_append]
      omega
    show (getTagOrU _ _).bind _ = _
    rw [getTagOrU, if_neg hlt, htag, Result.bind_ok, Result.bind_ok]
    simp only [hval, Result.bind_ok]
    rw [List.append_assoc] at ih
    exact ih

/-- **Decoding what was encoded from a decoded message gives it back.** -/
theorem decode_encode_decode {n : Nat} {bs : ByteString} {m : DynamicMessage} (h : decodeDynamic n bs = .right m)
    (hlen : (encodeDynamic m).length < 2 ^ 63) : ∃ N, ∀ k ≥ N, decodeDynamic k (encodeDynamic m) = .right m := by
  obtain ⟨off, hgo⟩ : ∃ off, decodeDynLoop.go n [] bs 0 = .ok m off := by
    unfold decodeDynamic runDecoder decodeDynLoop at h
    split at h
    · rename_i hgo
      split at h
      · cases h
        exact ⟨_, hgo⟩
      · cases h
    · cases h
    · cases h
    · cases h
  obtain ⟨fs, rfl, hreg⟩ := regular_of_decode n regular_nil hgo
  refine ⟨(entries fs).length + 1, fun k hk => ?_⟩
  have hbytes : encodeDynamic (.mk fs []) = [] ++ (entries fs).flatMap fun e => encodeDynValue e.1 e.2 := by
    rw [encodeDynamic, encodeFields_entries hreg.values, List.nil_append]
  rw [hbytes] at hlen ⊢
  have hloop := decodeDynLoop_entries (entries fs) k [] [] hreg.plain_entries hk hlen
  rw [foldl_appendValue fs [] hreg.values (by simpa using hreg.ascending)] at hloop
  unfold decodeDynamic runDecoder decodeDynLoop
  rw [List.length_nil, Nat.cast_zero] at hloop
  rw [hloop]
  simp [bsLen]

/-- Field 1 twice, around an empty group 2. -/
theorem decode_encode_decode_sample :
    decodeDynamic 8 [0x08, 0x01, 0x13, 0x14, 0x08, 0x02] = .right
      (.mk [(1, .dynRepeated [.dynVarint 1, .dynVarint 2]), (2, .dynBytes [])] []) ∧
    ∃ N, ∀ k ≥ N, decodeDynamic k (encodeDynamic
      (.mk [(1, .dynRepeated [.dynVarint 1, .dynVarint 2]), (2, .dynBytes [])] [])) = .right
      (.mk [(1, .dynRepeated [.dynVarint 1, .dynVarint 2]), (2, .dynBytes [])] []) :=
  ⟨rfl, @decode_encode_decode 8 [0x08, 0x01, 0x13, 0x14, 0x08, 0x02] _ rfl (by decide)⟩

end Wireform.Proto

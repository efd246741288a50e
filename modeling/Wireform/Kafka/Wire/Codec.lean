/-
  The compositions of the Kafka protocol's primitives, at a message version.

  * `Codec.peek_poke`: where every length fits its prefix, a value is read back,
    with null for a non-nullable array as the empty array, and the bytes after
    it are left; and the estimators bound what is written, whatever the lengths.
-/
import Wireform.Kafka.Wire.RoundTrip

namespace Wireform.Kafka.Wire

/-- A composition: `versionedString`, `versionedBytes` and the versioned arrays
    are compact from the threshold on. -/
inductive Codec where
  | kafkaString
  | compactString
  | kafkaBytes
  | compactBytes
  | versionedString (threshold : Int)
  | versionedBytes (threshold : Int)
  | kafkaArray (elt : Codec)
  | compactArray (elt : Codec)
  | nullableKafkaArray (elt : Codec)
  | nullableCompactArray (elt : Codec)
  | versionedArray (threshold : Int) (elt : Codec)
  | versionedNullableArray (threshold : Int) (elt : Codec)
  | taggedFields
  | both (first second : Codec)

namespace Codec

def Value : Codec → Type
  | kafkaString | compactString | versionedString _ => Nullable Text
  | kafkaBytes | compactBytes | versionedBytes _ => Nullable Bytes
  | kafkaArray elt | compactArray elt | nullableKafkaArray elt | nullableCompactArray elt
  | versionedArray _ elt | versionedNullableArray _ elt => KafkaArray elt.Value
  | taggedFields => List (Tag × Bytes)
  | both first second => first.Value × second.Value

def poke (version : Int) : (c : Codec) → Poke c.Value
  | kafkaString => pokeKafkaString
  | compactString => pokeCompactString
  | kafkaBytes => pokeKafkaBytes
  | compactBytes => pokeCompactBytes
  | versionedString threshold => pokeVersionedString version threshold
  | versionedBytes threshold => pokeVersionedBytes version threshold
  | kafkaArray elt => pokeKafkaArray (elt.poke version)
  | compactArray elt => pokeCompactArray (elt.poke version)
  | nullableKafkaArray elt => pokeNullableKafkaArray (elt.poke version)
  | nullableCompactArray elt => pokeNullableCompactArray (elt.poke version)
  | versionedArray threshold elt => pokeVersionedArray version threshold (elt.poke version)
  | versionedNullableArray threshold elt => pokeVersionedNullableArray version threshold (elt.poke version)
  | taggedFields => pokeTaggedFieldEntries
  | both first second => fun v => first.poke version v.1 ++ second.poke version v.2

attribute [grind =] poke

def peek (version : Int) : (c : Codec) → Peek c.Value
  | kafkaString => peekKafkaString
  | compactString => peekCompactString
  | kafkaBytes => peekKafkaBytes
  | compactBytes => peekCompactBytes
  | versionedString threshold => peekVersionedString version threshold
  | versionedBytes threshold => peekVersionedBytes version threshold
  | kafkaArray elt => peekKafkaArray (elt.peek version)
  | compactArray elt => peekCompactArray (elt.peek version)
  | nullableKafkaArray elt => peekNullableKafkaArray (elt.peek version)
  | nullableCompactArray elt => peekNullableCompactArray (elt.peek version)
  | versionedArray threshold elt => peekVersionedArray version threshold (elt.peek version)
  | versionedNullableArray threshold elt => peekVersionedNullableArray version threshold (elt.peek version)
  | taggedFields => peekTaggedFieldsMap
  | both first second => fun bs => do
    let (v, bs) ← first.peek version bs
    let (w, bs) ← second.peek version bs
    return ((v, w), bs)

/-- The sum of estimates, where there is one for each element. -/
def sumSizes {α : Type} (size : α → Option Nat) : List α → Option Nat
  | [] => some 0
  | v :: vs => do return (← size v) + (← sumSizes size vs)

/-- The estimate of a composition; there is none for tagged fields. -/
def maxSize : (c : Codec) → c.Value → Option Nat
  | kafkaString => fun v => some (kafkaStringMaxSize v)
  | compactString => fun v => some (compactStringMaxSize v)
  | kafkaBytes => fun v => some (kafkaBytesMaxSize v)
  | compactBytes => fun v => some (compactBytesMaxSize v)
  | versionedString _ => fun v => some (dualStringMaxSize v)
  | versionedBytes _ => fun v => some (dualBytesMaxSize v)
  | kafkaArray elt | compactArray elt | nullableKafkaArray elt | nullableCompactArray elt
  | versionedArray _ elt | versionedNullableArray _ elt => fun v =>
    (sumSizes elt.maxSize (Nullable.elements v)).map (compactArrayHeaderMaxSize + ·)
  | taggedFields => fun _ => none
  | both first second => fun v => do return (← first.maxSize v.1) + (← second.maxSize v.2)

/-! ## The values -/

def FitsArray {α : Type} (limit : Nat) (fits : α → Prop) (v : KafkaArray α) : Prop :=
  v.elements.length < limit ∧ ∀ x ∈ v.elements, fits x

def FitsEntries (entries : List (Tag × Bytes)) : Prop :=
  entries.length < 2 ^ 32 ∧ (∀ e ∈ entries, e.2.length < 2 ^ 32) ∧ (entries.map Prod.fst).Nodup

/-- Every length fits its prefix, and the tags of tagged fields are distinct. -/
def Fits (version : Int) : (c : Codec) → c.Value → Prop
  | kafkaString => Nullable.Below sizeOfText (2 ^ 15)
  | compactString => Nullable.Below sizeOfText (2 ^ 32 - 1)
  | kafkaBytes => Nullable.Below List.length (2 ^ 31)
  | compactBytes => Nullable.Below List.length (2 ^ 32 - 1)
  | versionedString threshold => Nullable.Below sizeOfText (if version ≥ threshold then 2 ^ 32 - 1 else 2 ^ 15)
  | versionedBytes threshold => Nullable.Below List.length (if version ≥ threshold then 2 ^ 32 - 1 else 2 ^ 31)
  | kafkaArray elt | nullableKafkaArray elt => FitsArray (2 ^ 31) (elt.Fits version)
  | compactArray elt | nullableCompactArray elt => FitsArray (2 ^ 32 - 1) (elt.Fits version)
  | versionedArray threshold elt | versionedNullableArray threshold elt =>
    FitsArray (if version ≥ threshold then 2 ^ 32 - 1 else 2 ^ 31) (elt.Fits version)
  | taggedFields => FitsEntries
  | both first second => fun v => first.Fits version v.1 ∧ second.Fits version v.2

def SameNonNullable {α : Type} (same : α → α → Prop) (v w : KafkaArray α) : Prop :=
  ∃ ws, w = .notNull ws ∧ List.Forall₂ same v.elements ws

inductive SameNullable {α : Type} (same : α → α → Prop) : KafkaArray α → KafkaArray α → Prop
  | null : SameNullable same .null .null
  | notNull {vs ws : List α} : List.Forall₂ same vs ws → SameNullable same (.notNull vs) (.notNull ws)

/-- The same value, but that null for a non-nullable array is the empty array,
    and tagged fields are the map of their entries. -/
def Same : (c : Codec) → c.Value → c.Value → Prop
  | kafkaString | compactString | versionedString _ => fun v w => w = v
  | kafkaBytes | compactBytes | versionedBytes _ => fun v w => w = v
  | kafkaArray elt | compactArray elt | versionedArray _ elt => SameNonNullable elt.Same
  | nullableKafkaArray elt | nullableCompactArray elt | versionedNullableArray _ elt => SameNullable elt.Same
  | taggedFields => fun entries m => AssocMap.Ascending m ∧ m.Perm entries
  | both first second => fun v w => first.Same v.1 w.1 ∧ second.Same v.2 w.2

/-! ## Sizes -/

theorem length_pokeKafkaString (v : KafkaString) : 0 < (pokeKafkaString v).length ∧
    (pokeKafkaString v).length ≤ kafkaStringMaxSize v ∧ (pokeKafkaString v).length ≤ dualStringMaxSize v := by
  cases v with
  | null => simp [pokeKafkaString, pokeInt16BE, kafkaStringMaxSize, dualStringMaxSize]
  | notNull t =>
    simp only [pokeKafkaString, pokeInt16BE, List.length_append, length_pokeIntBE, kafkaStringMaxSize,
      dualStringMaxSize, sizeOfText]
    omega

theorem length_pokeKafkaBytes (v : KafkaBytes) : 0 < (pokeKafkaBytes v).length ∧
    (pokeKafkaBytes v).length ≤ kafkaBytesMaxSize v ∧ (pokeKafkaBytes v).length ≤ dualBytesMaxSize v := by
  cases v with
  | null => simp [pokeKafkaBytes, pokeInt32BE, kafkaBytesMaxSize, dualBytesMaxSize]
  | notNull bs =>
    simp only [pokeKafkaBytes, pokeInt32BE, List.length_append, length_pokeIntBE, kafkaBytesMaxSize, dualBytesMaxSize]
    omega

theorem length_pokeCompactString (v : CompactString) : 0 < (pokeCompactString v).length ∧
    (pokeCompactString v).length ≤ compactStringMaxSize v ∧ (pokeCompactString v).length ≤ dualStringMaxSize v := by
  cases v with
  | null => simp [pokeCompactString, pokeUVarInt, compactStringMaxSize, dualStringMaxSize]
  | notNull t =>
    have hpos := length_pokeUVarInt_pos (UInt32.ofNat (encodeUtf8 t).length + 1)
    have hle := length_pokeUVarInt_le (UInt32.ofNat (encodeUtf8 t).length + 1)
    simp only [pokeCompactString, List.length_append, compactStringMaxSize, dualStringMaxSize, sizeOfText]
    omega

theorem length_pokeCompactBytes (v : CompactBytes) : 0 < (pokeCompactBytes v).length ∧
    (pokeCompactBytes v).length ≤ compactBytesMaxSize v ∧ (pokeCompactBytes v).length ≤ dualBytesMaxSize v := by
  cases v with
  | null => simp [pokeCompactBytes, pokeUVarInt, compactBytesMaxSize, dualBytesMaxSize]
  | notNull bs =>
    have hpos := length_pokeUVarInt_pos (UInt32.ofNat bs.length + 1)
    have hle := length_pokeUVarInt_le (UInt32.ofNat bs.length + 1)
    simp only [pokeCompactBytes, List.length_append, compactBytesMaxSize, dualBytesMaxSize]
    omega

theorem length_pokeVersionedString (version threshold : Int) (v : KafkaString) :
    0 < (pokeVersionedString version threshold v).length ∧
      (pokeVersionedString version threshold v).length ≤ dualStringMaxSize v := by
  unfold pokeVersionedString
  split_ifs
  · exact ⟨(length_pokeCompactString v).1, (length_pokeCompactString v).2.2⟩
  · exact ⟨(length_pokeKafkaString v).1, (length_pokeKafkaString v).2.2⟩

theorem length_pokeVersionedBytes (version threshold : Int) (v : KafkaBytes) :
    0 < (pokeVersionedBytes version threshold v).length ∧
      (pokeVersionedBytes version threshold v).length ≤ dualBytesMaxSize v := by
  unfold pokeVersionedBytes
  split_ifs
  · exact ⟨(length_pokeCompactBytes v).1, (length_pokeCompactBytes v).2.2⟩
  · exact ⟨(length_pokeKafkaBytes v).1, (length_pokeKafkaBytes v).2.2⟩

/-- A header of at most five bytes, and the elements. -/
def Framed {α : Type} (poke : Poke (KafkaArray α)) (pokeElt : Poke α) : Prop :=
  ∀ v, 0 < (poke v).length ∧ (poke v).length ≤ compactArrayHeaderMaxSize + (v.elements.flatMap pokeElt).length

section
variable {α : Type} (pokeElt : Poke α)

theorem pokeKafkaArray_framed : Framed (pokeKafkaArray pokeElt) pokeElt := by
  intro v
  simp only [pokeKafkaArray, pokeInt32BE, List.length_append, length_pokeIntBE, compactArrayHeaderMaxSize]
  omega

theorem pokeCompactArray_framed : Framed (pokeCompactArray pokeElt) pokeElt := by
  intro v
  have hpos := length_pokeUVarInt_pos (UInt32.ofNat (v.elements.length + 1))
  have hle := length_pokeUVarInt_le (UInt32.ofNat (v.elements.length + 1))
  simp only [pokeCompactArray, List.length_append, compactArrayHeaderMaxSize]
  omega

theorem pokeNullableKafkaArray_framed : Framed (pokeNullableKafkaArray pokeElt) pokeElt
  | .null => by simp [pokeNullableKafkaArray, pokeInt32BE, compactArrayHeaderMaxSize, Nullable.elements]
  | .notNull v => pokeKafkaArray_framed pokeElt (.notNull v)

theorem pokeNullableCompactArray_framed : Framed (pokeNullableCompactArray pokeElt) pokeElt
  | .null => ⟨length_pokeUVarInt_pos 0, Nat.le_trans (length_pokeUVarInt_le 0) (Nat.le_add_right _ _)⟩
  | .notNull v => pokeCompactArray_framed pokeElt (.notNull v)

theorem pokeVersionedArray_framed (version threshold : Int) :
    Framed (pokeVersionedArray version threshold pokeElt) pokeElt := by
  unfold pokeVersionedArray
  split_ifs
  · exact pokeCompactArray_framed pokeElt
  · exact pokeKafkaArray_framed pokeElt

theorem pokeVersionedNullableArray_framed (version threshold : Int) :
    Framed (pokeVersionedNullableArray version threshold pokeElt) pokeElt := by
  unfold pokeVersionedNullableArray
  split_ifs
  · exact pokeNullableCompactArray_framed pokeElt
  · exact pokeNullableKafkaArray_framed pokeElt

end

theorem length_poke_pos (version : Int) (c : Codec) : ∀ v : c.Value, 0 < (c.poke version v).length := by
  induction c with
  | kafkaString => exact fun v => (length_pokeKafkaString v).1
  | compactString => exact fun v => (length_pokeCompactString v).1
  | kafkaBytes => exact fun v => (length_pokeKafkaBytes v).1
  | compactBytes => exact fun v => (length_pokeCompactBytes v).1
  | versionedString threshold => exact fun v => (length_pokeVersionedString version threshold v).1
  | versionedBytes threshold => exact fun v => (length_pokeVersionedBytes version threshold v).1
  | kafkaArray elt => exact fun v => (pokeKafkaArray_framed _ v).1
  | compactArray elt => exact fun v => (pokeCompactArray_framed _ v).1
  | nullableKafkaArray elt => exact fun v => (pokeNullableKafkaArray_framed _ v).1
  | nullableCompactArray elt => exact fun v => (pokeNullableCompactArray_framed _ v).1
  | versionedArray threshold elt => exact fun v => (pokeVersionedArray_framed _ version threshold v).1
  | versionedNullableArray threshold elt => exact fun v => (pokeVersionedNullableArray_framed _ version threshold v).1
  | taggedFields =>
    intro entries
    have := length_pokeUVarInt_pos (UInt32.ofNat entries.length)
    unfold poke pokeTaggedFieldEntries
    rw [List.length_append]
    omega
  | both first second ih₁ ih₂ =>
    intro v
    have := ih₁ v.1
    unfold poke
    rw [List.length_append]
    omega

/-! ## Estimates -/

theorem length_flatMap_le {α : Type} {pokeElt : Poke α} {size : α → Option Nat} {vs : List α}
    (h : ∀ v k, size v = some k → (pokeElt v).length ≤ k) : ∀ {n : Nat}, sumSizes size vs = some n →
    (vs.flatMap pokeElt).length ≤ n := by
  induction vs with
  | nil => exact fun _ => Nat.zero_le _
  | cons v vs ih =>
    intro n hn
    simp only [sumSizes, Option.bind_eq_bind, Option.bind_eq_some_iff, Option.pure_def, Option.some.injEq] at hn
    obtain ⟨k, hk, m, hm, rfl⟩ := hn
    rw [List.flatMap_cons, List.length_append]
    exact Nat.add_le_add (h v k hk) (ih hm)

theorem length_array_le {α : Type} {poke : Poke (KafkaArray α)} {pokeElt : Poke α} {size : α → Option Nat}
    (hframed : Framed poke pokeElt) (h : ∀ v k, size v = some k → (pokeElt v).length ≤ k) (v : KafkaArray α) {n : Nat}
    (hn : (sumSizes size v.elements).map (compactArrayHeaderMaxSize + ·) = some n) : (poke v).length ≤ n := by
  obtain ⟨k, hk, rfl⟩ := Option.map_eq_some_iff.1 hn
  exact Nat.le_trans (hframed v).2 (Nat.add_le_add_left (length_flatMap_le h hk) _)

/-- The estimate bounds what is written. -/
theorem length_poke_le (version : Int) (c : Codec) : ∀ (v : c.Value) (n : Nat), c.maxSize v = some n →
    (c.poke version v).length ≤ n := by
  induction c with
  | kafkaString => rintro v _ ⟨⟩; exact (length_pokeKafkaString v).2.1
  | compactString => rintro v _ ⟨⟩; exact (length_pokeCompactString v).2.1
  | kafkaBytes => rintro v _ ⟨⟩; exact (length_pokeKafkaBytes v).2.1
  | compactBytes => rintro v _ ⟨⟩; exact (length_pokeCompactBytes v).2.1
  | versionedString threshold => rintro v _ ⟨⟩; exact (length_pokeVersionedString version threshold v).2
  | versionedBytes threshold => rintro v _ ⟨⟩; exact (length_pokeVersionedBytes version threshold v).2
  | kafkaArray elt ih => exact fun v _ => length_array_le (pokeKafkaArray_framed _) ih v
  | compactArray elt ih => exact fun v _ => length_array_le (pokeCompactArray_framed _) ih v
  | nullableKafkaArray elt ih => exact fun v _ => length_array_le (pokeNullableKafkaArray_framed _) ih v
  | nullableCompactArray elt ih => exact fun v _ => length_array_le (pokeNullableCompactArray_framed _) ih v
  | versionedArray threshold elt ih =>
    exact fun v _ => length_array_le (pokeVersionedArray_framed _ version threshold) ih v
  | versionedNullableArray threshold elt ih =>
    exact fun v _ => length_array_le (pokeVersionedNullableArray_framed _ version threshold) ih v
  | taggedFields => exact fun _ _ h => nomatch h
  | both first second ih₁ ih₂ =>
    intro v n hn
    simp only [maxSize, Option.bind_eq_bind, Option.bind_eq_some_iff, Option.pure_def, Option.some.injEq] at hn
    obtain ⟨k, hk, m, hm, rfl⟩ := hn
    unfold poke
    rw [List.length_append]
    exact Nat.add_le_add (ih₁ v.1 k hk) (ih₂ v.2 m hm)

/-! ## Reading back -/

theorem exists_forall₂ {α : Type} {same : α → α → Prop} {poke : Poke α} {peek : Peek α} {vs : List α}
    (h : ∀ v ∈ vs, ∃ w, same v w ∧ Reads poke peek v w) :
    ∃ ws, List.Forall₂ same vs ws ∧ List.Forall₂ (Reads poke peek) vs ws := by
  induction vs with
  | nil => exact ⟨[], .nil, .nil⟩
  | cons v vs ih =>
    obtain ⟨w, hsame, hreads⟩ := h v List.mem_cons_self
    obtain ⟨ws, hsames, hreadss⟩ := ih fun x hx => h x (List.mem_cons_of_mem _ hx)
    exact ⟨w :: ws, .cons hsame hsames, .cons hreads hreadss⟩

theorem peek_poke (version : Int) (c : Codec) : ∀ v : c.Value, c.Fits version v →
    ∃ w, c.Same v w ∧ Reads (c.poke version) (c.peek version) v w := by
  induction c with
  | kafkaString => exact fun v h => ⟨v, rfl, kafkaString_reads h⟩
  | compactString => exact fun v h => ⟨v, rfl, compactString_reads h⟩
  | kafkaBytes => exact fun v h => ⟨v, rfl, kafkaBytes_reads h⟩
  | compactBytes => exact fun v h => ⟨v, rfl, compactBytes_reads h⟩
  | versionedString threshold => exact fun v h => ⟨v, rfl, versionedString_reads h⟩
  | versionedBytes threshold => exact fun v h => ⟨v, rfl, versionedBytes_reads h⟩
  | kafkaArray elt ih =>
    intro v h
    obtain ⟨ws, hsame, hreads⟩ := exists_forall₂ fun x hx => ih x (h.2 x hx)
    exact ⟨.notNull ws, ⟨ws, rfl, hsame⟩, kafkaArray_reads (length_poke_pos version elt) h.1 hreads⟩
  | compactArray elt ih =>
    intro v h
    obtain ⟨ws, hsame, hreads⟩ := exists_forall₂ fun x hx => ih x (h.2 x hx)
    exact ⟨.notNull ws, ⟨ws, rfl, hsame⟩, compactArray_reads (length_poke_pos version elt) h.1 hreads⟩
  | nullableKafkaArray elt ih =>
    intro v h
    cases v with
    | null => exact ⟨.null, .null, nullableKafkaArray_null⟩
    | notNull vs =>
      obtain ⟨ws, hsame, hreads⟩ := exists_forall₂ fun x hx => ih x (h.2 x hx)
      exact ⟨.notNull ws, .notNull hsame, nullableKafkaArray_reads (length_poke_pos version elt) h.1 hreads⟩
  | nullableCompactArray elt ih =>
    intro v h
    cases v with
    | null => exact ⟨.null, .null, nullableCompactArray_null⟩
    | notNull vs =>
      obtain ⟨ws, hsame, hreads⟩ := exists_forall₂ fun x hx => ih x (h.2 x hx)
      exact ⟨.notNull ws, .notNull hsame, nullableCompactArray_reads (length_poke_pos version elt) h.1 hreads⟩
  | versionedArray threshold elt ih =>
    intro v h
    obtain ⟨ws, hsame, hreads⟩ := exists_forall₂ fun x hx => ih x (h.2 x hx)
    refine ⟨.notNull ws, ⟨ws, rfl, hsame⟩, ?_⟩
    have hlen := h.1
    unfold poke peek pokeVersionedArray peekVersionedArray
    split_ifs at hlen ⊢
    · exact compactArray_reads (length_poke_pos version elt) hlen hreads
    · exact kafkaArray_reads (length_poke_pos version elt) hlen hreads
  | versionedNullableArray threshold elt ih =>
    intro v h
    have hlen := h.1
    unfold poke peek pokeVersionedNullableArray peekVersionedNullableArray
    cases v with
    | null =>
      refine ⟨.null, .null, ?_⟩
      split_ifs
      · exact nullableCompactArray_null
      · exact nullableKafkaArray_null
    | notNull vs =>
      obtain ⟨ws, hsame, hreads⟩ := exists_forall₂ fun x hx => ih x (h.2 x hx)
      refine ⟨.notNull ws, .notNull hsame, ?_⟩
      split_ifs at hlen ⊢
      · exact nullableCompactArray_reads (length_poke_pos version elt) hlen hreads
      · exact nullableKafkaArray_reads (length_poke_pos version elt) hlen hreads
  | taggedFields =>
    exact fun entries h => ⟨AssocMap.fromList entries, ⟨AssocMap.ascending_fromList entries, fromList_perm h.2.2⟩,
      taggedFields_reads h.1 h.2.1⟩
  | both first second ih₁ ih₂ =>
    intro v h
    obtain ⟨w₁, hsame₁, hreads₁⟩ := ih₁ v.1 h.1
    obtain ⟨w₂, hsame₂, hreads₂⟩ := ih₂ v.2 h.2
    refine ⟨(w₁, w₂), ⟨hsame₁, hsame₂⟩, fun rest => ?_⟩
    unfold poke peek
    simp only [List.append_assoc, hreads₁ _, ok_bind, hreads₂ rest]
    rfl

/-- **What fits is read back, and the estimate bounds what is written.** -/
theorem primitives_round_trip (version : Int) (c : Codec) (v : c.Value) :
    (c.Fits version v → ∃ w, c.Same v w ∧ ∀ rest, c.peek version (c.poke version v ++ rest) = .ok (w, rest)) ∧
      ∀ n, c.maxSize v = some n → (c.poke version v).length ≤ n :=
  ⟨peek_poke version c v, length_poke_le version c v⟩

/-- The names of a topic's partitions, with a tagged field behind. -/
def topicCodec : Codec := both (versionedArray 9 (versionedString 9)) taggedFields

theorem primitives_round_trip_topic : ∃ w, topicCodec.Same (.notNull [.notNull "a", .null], [(1, [7])]) w ∧
    ∀ rest, topicCodec.peek 12 (topicCodec.poke 12 (.notNull [.notNull "a", .null], [(1, [7])]) ++ rest) =
      .ok (w, rest) := by
  refine (primitives_round_trip 12 topicCodec (.notNull [.notNull "a", .null], [(1, [7])])).1 ?_
  refine ⟨⟨by decide, fun x hx => ?_⟩, by decide, by decide, by decide⟩
  rcases List.mem_cons.1 hx with rfl | hx
  · show sizeOfText "a" < _
    decide
  · obtain rfl := List.mem_singleton.1 hx
    trivial

/-- A null array that is not nullable comes back as the empty array. -/
theorem null_array_is_empty : ¬ ∀ (version : Int) (c : Codec) (v : c.Value) (rest : Bytes),
    c.peek version (c.poke version v ++ rest) = .ok (v, rest) := by
  intro h
  have hnull := h 0 (kafkaArray kafkaString) .null []
  have hempty : Reads (pokeKafkaArray pokeKafkaString) (peekKafkaArray peekKafkaString) .null (.notNull []) :=
    kafkaArray_reads (fun v => (length_pokeKafkaString v).1) (by decide) .nil
  cases hnull.symm.trans (hempty [])

end Codec

end Wireform.Kafka.Wire

/-
  Decoding with a schema, against decoding without one.

  * `SchemaDecodes sc bs` is what callers of `decodeDynamicWithSchema` rely on:
    it returns, it accepts nothing that `decodeDynamic` does not accept, and it
    stores every declared field, a repeated one with all its occurrences;
  * `Readable sc bs` says that the message is well-formed, that the declared
    fields before its first group have acceptable payloads, and that the
    declared fields after it are not repeated and occurred before;
  * `schemaDecodes_iff`: the two are the same.
-/
import Wireform.Proto.TableLoop

namespace Wireform.Proto

open AssocMap

variable {sc : Schema} {bs : ByteString}

/-! ## What callers rely on -/

/-- From some step budget on, the decoder returns `r`. -/
def Returns (sc : Schema) (bs : ByteString) (r : Except DecodeError DynamicMessage) : Prop :=
  ∃ n₀, ∀ n ≥ n₀, decodeDynamicWithSchema n (compileParseTable sc) bs = .done r

/-- The message stores the declared fields among `fs`: their numbers are its
    keys, and a repeated field holds all its occurrences in wire order. -/
structure StoresAll (sc : Schema) (fs : List WireField) (m : DynamicMessage) : Prop where
  keys : ∀ fn, (lookup fn m.dynFields).isSome ↔
    ∃ fd ∈ sc.fieldDescriptors, fd.fdNumber = fn ∧ ∃ f ∈ fs, fd.Matches f
  repeated : ∀ fd ∈ sc.fieldDescriptors, fd.fdLabel = .labelRepeated →
    ∃ vs, List.Forall₂ fd.fdTypeDesc.Reads (occurrences fd fs) vs ∧
      lookup fd.fdNumber m.dynFields = pack vs

/-- What callers of `decodeDynamicWithSchema` rely on. -/
structure SchemaDecodes (sc : Schema) (bs : ByteString) : Prop where
  /-- It returns: it throws no exception and does not run forever. -/
  returns : ∃ r, Returns sc bs r
  /-- What `decodeDynamic` does not accept is not accepted. -/
  rejects : (∀ n m, decodeDynamic n bs ≠ .right m) → ∀ m, ¬ Returns sc bs (.ok m)
  /-- Well-formed messages are read in full. -/
  stores : ∀ n fs, wireFields n bs = .right fs → ∃ m, Returns sc bs (.ok m) ∧ StoresAll sc fs m

/-! ## When they get it -/

/-- The message is well-formed, the declared fields before its first group have
    acceptable payloads, and those after it are not repeated and occurred
    before it. -/
def Readable (sc : Schema) (bs : ByteString) : Prop :=
  ∃ n fs, wireFields n bs = .right fs ∧ AllRead sc (beforeGroup fs) ∧
    ∀ f ∈ afterGroup fs, ∀ fd ∈ sc.fieldDescriptors, fd.Matches f →
      fd.fdLabel ≠ .labelRepeated ∧ ∃ g ∈ beforeGroup fs, fd.Matches g

theorem before_append_after (fs : List WireField) : beforeGroup fs ++ afterGroup fs = fs :=
  List.takeWhile_append_dropWhile

/-- An empty input needs no branch of its own. -/
theorem decodeDynamicWithSchema_eq (hne : sc.fieldDescriptors ≠ []) {n : Nat} (hn : 0 < n) :
    decodeDynamicWithSchema n (compileParseTable sc) bs =
      (decodeDynamicWithSchema.go (compileParseTable sc) bs n 0 0 []).bind fun fields =>
        .done (.ok (.mk fields [])) := by
  obtain ⟨k, rfl⟩ : ∃ k, n = k + 1 := ⟨n - 1, by omega⟩
  have hfields : (compileParseTable sc).ptFields ≠ [] := by
    intro h
    have hlen := congrArg List.length h
    simp only [compileParseTable, fieldParsers, List.length_mapIdx, List.length_nil] at hlen
    exact hne (List.length_eq_zero_iff.1 hlen)
  unfold decodeDynamicWithSchema
  by_cases hnil : bs = []
  · rw [if_pos hnil, go_end sc (by simp [hnil, bsLen])]
    rfl
  · rw [if_neg hnil, if_neg hfields]

theorem at_zero (h : bsLen bs < 2 ^ 62) : At bs 0 :=
  ⟨le_refl _, by unfold bsLen; omega, h⟩

/-- A message that is returned holds the entries before the first group. -/
theorem entries_of_returns (hne : sc.fieldDescriptors ≠ []) (hbs : bsLen bs < 2 ^ 62) {n : Nat}
    {fs : List WireField} (hfs : wireFields n bs = .right fs) {m : DynamicMessage}
    (h : Returns sc bs (.ok m)) : ∃ es, Parsed sc (beforeGroup fs) es ∧
      m.dynFields = es.foldl Entry.store [] := by
  obtain ⟨n₀, hn₀⟩ := h
  have hk := hn₀ (n₀ + 1) (by omega)
  rw [decodeDynamicWithSchema_eq hne (by omega)] at hk
  cases hgo : decodeDynamicWithSchema.go (compileParseTable sc) bs (n₀ + 1) 0 0 [] with
  | done out =>
    rw [hgo, Outcome.bind_done] at hk
    cases hk
    obtain ⟨es, hes, rfl⟩ := go_sound n 0 fs _ (at_zero hbs) (runDecoder_right.1 hfs) _ _ _ _ hgo
    exact ⟨es, hes, rfl⟩
  | _ => rw [hgo] at hk; cases hk

/-- Entries before the first group are returned. -/
theorem returns_of_entries (hne : sc.fieldDescriptors ≠ []) (hbs : bsLen bs < 2 ^ 62) {n : Nat}
    {fs : List WireField} (hfs : wireFields n bs = .right fs) {es : List Entry}
    (hes : Parsed sc (beforeGroup fs) es) :
    Returns sc bs (.ok (.mk (es.foldl Entry.store []) [])) := by
  obtain ⟨k₀, hk₀⟩ := go_complete n 0 fs _ (at_zero hbs) (runDecoder_right.1 hfs) es hes
  refine ⟨k₀ + 1, fun k hk => ?_⟩
  rw [decodeDynamicWithSchema_eq hne (by omega), hk₀ k (by omega)]
  rfl

theorem occurrences_append (fd : FieldDescriptor) (fs gs : List WireField) :
    occurrences fd (fs ++ gs) = occurrences fd fs ++ occurrences fd gs := by
  simp [occurrences]

theorem occurrences_eq_nil {fd : FieldDescriptor} {fs : List WireField} :
    occurrences fd fs = [] ↔ ∀ f ∈ fs, ¬ fd.Matches f := by
  simp [occurrences]

theorem plain_of_reads {td : FieldTypeDescriptor} {raws vs : List DynamicValue}
    (h : List.Forall₂ td.Reads raws vs) : Plain vs := by
  induction h with
  | nil => simp [Plain]
  | cons hv _ ih =>
    intro v hmem
    rcases List.mem_cons.1 hmem with rfl | hmem
    · exact hv.plain
    · exact ih v hmem

section

variable {fs : List WireField} {es : List Entry}

/-- What the entries before the first group leave of a repeated field. -/
theorem lookup_repeated (hes : Parsed sc (beforeGroup fs) es) {fd : FieldDescriptor}
    (hfd : fd ∈ sc.fieldDescriptors) (hl : fd.fdLabel = .labelRepeated) :
    lookup fd.fdNumber (es.foldl Entry.store []) = pack (valuesOf fd es) := by
  have h := lookup_store_repeated hl es [] [] (fun e he hn => sc.eq_of_number (hes.mem e he) hfd hn)
    (by rw [List.nil_append]; exact plain_of_reads (hes.values hfd)) rfl
  rwa [List.nil_append] at h

/-- The entries before the first group are all there is to store exactly when
    the declared fields after it are not repeated and occurred before. -/
theorem storesAll_iff (hes : Parsed sc (beforeGroup fs) es) {m : DynamicMessage}
    (hm : m.dynFields = es.foldl Entry.store []) : StoresAll sc fs m ↔
      ∀ f ∈ afterGroup fs, ∀ fd ∈ sc.fieldDescriptors, fd.Matches f →
        fd.fdLabel ≠ .labelRepeated ∧ ∃ g ∈ beforeGroup fs, fd.Matches g := by
  have hsplit := before_append_after fs
  have hkeys : ∀ fn, (lookup fn m.dynFields).isSome ↔
      ∃ fd ∈ sc.fieldDescriptors, fd.fdNumber = fn ∧ ∃ f ∈ beforeGroup fs, fd.Matches f := by
    intro fn
    rw [hm, isSome_lookup_store, hes.number_iff]
    simp
  constructor
  · intro hs f hf fd hfd hr
    have hmem : f ∈ fs := hsplit ▸ List.mem_append_right _ hf
    constructor
    · intro hl
      obtain ⟨vs, hvs, hlook⟩ := hs.repeated fd hfd hl
      rw [hm, lookup_repeated hes hfd hl] at hlook
      -- `pack` keeps the number of values, so no occurrence is left for later
      have heq := pack_inj (plain_of_reads (hes.values hfd)) (plain_of_reads hvs) hlook
      have hlen := hvs.length_eq
      rw [← heq, ← (hes.values hfd).length_eq, ← hsplit, occurrences_append, List.length_append,
        hsplit] at hlen
      have hnil : occurrences fd (afterGroup fs) = [] := List.length_eq_zero_iff.1 (by omega)
      exact occurrences_eq_nil.1 hnil f hf hr
    · have hk := (hs.keys fd.fdNumber).2 ⟨fd, hfd, rfl, f, hmem, hr⟩
      obtain ⟨fd', hfd', hn, g, hg, hr'⟩ := (hkeys fd.fdNumber).1 hk
      obtain rfl := sc.eq_of_number hfd' hfd hn
      exact ⟨g, hg, hr'⟩
  · intro hafter
    constructor
    · intro fn
      rw [hkeys]
      constructor
      · rintro ⟨fd, hfd, hn, f, hf, hr⟩
        exact ⟨fd, hfd, hn, f, hsplit ▸ List.mem_append_left _ hf, hr⟩
      · rintro ⟨fd, hfd, hn, f, hf, hr⟩
        rw [← hsplit] at hf
        rcases List.mem_append.1 hf with hf | hf
        · exact ⟨fd, hfd, hn, f, hf, hr⟩
        · obtain ⟨-, g, hg, hr'⟩ := hafter f hf fd hfd hr
          exact ⟨fd, hfd, hn, g, hg, hr'⟩
    · intro fd hfd hl
      have hnil : occurrences fd (afterGroup fs) = [] :=
        occurrences_eq_nil.2 fun f hf hr => (hafter f hf fd hfd hr).1 hl
      refine ⟨valuesOf fd es, ?_, by rw [hm, lookup_repeated hes hfd hl]⟩
      rw [← hsplit, occurrences_append, hnil, List.append_nil]
      exact hes.values hfd

end

/-- **`decodeDynamicWithSchema` does what its callers rely on exactly when the
    message is well-formed, the declared fields before its first group have
    acceptable payloads, and those after it are not repeated and occurred
    before it.** -/
theorem schemaDecodes_iff (sc : Schema) (hne : sc.fieldDescriptors ≠ []) (bs : ByteString)
    (hbs : bsLen bs < 2 ^ 62) : SchemaDecodes sc bs ↔ Readable sc bs := by
  constructor
  · intro h
    obtain ⟨r, hr⟩ := h.returns
    have hok : ∃ m, Returns sc bs (.ok m) := by
      obtain ⟨n₀, hn₀⟩ := hr
      have hk := hn₀ (n₀ + 1) (by omega)
      rw [decodeDynamicWithSchema_eq hne (by omega)] at hk
      cases hgo : decodeDynamicWithSchema.go (compileParseTable sc) bs (n₀ + 1) 0 0 [] with
      | done out =>
        rw [hgo, Outcome.bind_done] at hk
        cases hk
        exact ⟨_, n₀, hn₀⟩
      | _ => rw [hgo] at hk; cases hk
    have hwf : ∃ n m, decodeDynamic n bs = .right m := by
      by_contra hno
      push Not at hno
      obtain ⟨m, hm⟩ := hok
      exact h.rejects hno m hm
    obtain ⟨n, hn⟩ := hwf
    obtain ⟨fs, hfs⟩ := decodeDynamic_right.1 hn
    obtain ⟨m, hret, hstores⟩ := h.stores n fs hfs
    obtain ⟨es, hes, hm⟩ := entries_of_returns hne hbs hfs hret
    exact ⟨n, fs, hfs, (parsed_iff _).1 ⟨es, hes⟩, (storesAll_iff hes hm).1 hstores⟩
  · rintro ⟨n, fs, hfs, hall, hafter⟩
    obtain ⟨es, hes⟩ := (parsed_iff _).2 hall
    have hret := returns_of_entries hne hbs hfs hes
    refine ⟨⟨_, hret⟩, fun hno => ?_, fun n' fs' hfs' => ?_⟩
    · obtain ⟨m, hm⟩ := decodeDynamic_right.2 ⟨fs, hfs⟩
      exact absurd hm (hno n m)
    · obtain rfl := wireFields_unique hfs hfs'
      exact ⟨_, hret, (storesAll_iff hes rfl).2 hafter⟩

/-! ## A truncated message -/

/-- A message type with one repeated varint field. -/
def oneField : Schema where
  fieldDescriptors := [⟨1, .scalarType .int32Field, .labelRepeated⟩]
  ascending := by simp
  positive := by simp
  small := by simp

theorem schemaDecodes_iff_oneField :
    SchemaDecodes oneField [0x08, 0x01] ↔ Readable oneField [0x08, 0x01] :=
  schemaDecodes_iff oneField (by simp [oneField]) [0x08, 0x01] (by decide)

/-- `08 01 10`: the field, and a tag without its value.  The truncated message
    is returned with the field decoded so far. -/
theorem truncated_returned : ¬ SchemaDecodes oneField [0x08, 0x01, 0x10] := by
  intro h
  have hret : Returns oneField [0x08, 0x01, 0x10] (.ok (.mk [(1, .dynVarint 1)] [])) := by
    refine ⟨2, fun n hn => ?_⟩
    obtain ⟨k, rfl⟩ : ∃ k, n = k + 2 := ⟨n - 2, by omega⟩
    rfl
  refine h.rejects (fun n m => ?_) _ hret
  match n with
  | 0 | 1 | 2 => intro hm; cases hm
  | n + 3 => intro hm; cases hm

end Wireform.Proto

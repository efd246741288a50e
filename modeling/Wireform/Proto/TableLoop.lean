/-
  The loop of `decodeDynamicWithSchema`, as a whole.

  * `Parsed sc fs es`: `es` holds a value for every field among `fs` that the
    schema declares (`parsed_iff`: when they all have one);
  * `isSome_lookup_store` and `lookup_store_repeated`: what the stored entries
    leave in the map;
  * `go_sound` and `go_complete`: the loop stores the entries of the fields
    before the first group.
-/
import Wireform.Proto.TableDecode

namespace Wireform.Proto

open AssocMap

variable {bs : ByteString}

/-! ## What is stored -/

/-- A field of the schema with a value for it. -/
abbrev Entry := FieldDescriptor × DynamicValue

def Entry.store (m : AssocMap Int DynamicValue) (e : Entry) : AssocMap Int DynamicValue :=
  storeField e.1.fdLabel e.1.fdNumber e.2 m

/-- What is stored for the values of a repeated field. -/
def pack : List DynamicValue → Option DynamicValue
  | [] => none
  | [v] => some v
  | vs => some (.dynRepeated vs)

def Plain (vs : List DynamicValue) : Prop := ∀ v ∈ vs, ∀ ws, v ≠ .dynRepeated ws

/-- The values of a field among the entries. -/
def valuesOf (fd : FieldDescriptor) (es : List Entry) : List DynamicValue :=
  (es.filter fun e => e.1.fdNumber = fd.fdNumber).map Prod.snd

theorem pack_inj {vs ws : List DynamicValue} (hv : Plain vs) (hw : Plain ws) (h : pack vs = pack ws) :
    vs = ws := by
  match vs, ws with
  | [], [] => rfl
  | [], [_] => cases h
  | [], _ :: _ :: _ => cases h
  | [_], [] => cases h
  | [v], [w] => cases h; rfl
  | [v], w :: w' :: ws' => cases h; exact absurd rfl (hv _ (List.mem_singleton_self _) _)
  | _ :: _ :: _, [] => cases h
  | v :: v' :: vs', [w] => cases h; exact absurd rfl (hw _ (List.mem_singleton_self _) _)
  | v :: v' :: vs', w :: w' :: ws' => cases h; rfl

theorem lookup_storeField (label : FieldLabel) (fn k : Int) (v : DynamicValue)
    (m : AssocMap Int DynamicValue) : lookup k (storeField label fn v m) =
      if k = fn then lookup k (storeField label fn v m) else lookup k m := by
  split
  · rfl
  · rename_i hk
    cases label with
    | labelRepeated =>
      change lookup k (appendValue fn v m) = _
      unfold appendValue
      split <;> simp [hk]
    | _ => simp [storeField, hk]

theorem isSome_lookup_storeField (label : FieldLabel) (fn k : Int) (v : DynamicValue)
    (m : AssocMap Int DynamicValue) :
    (lookup k (storeField label fn v m)).isSome ↔ k = fn ∨ (lookup k m).isSome := by
  rw [lookup_storeField]
  by_cases hk : k = fn
  · subst hk
    rw [if_pos rfl]
    refine ⟨fun _ => Or.inl rfl, fun _ => ?_⟩
    cases label with
    | labelRepeated =>
      change (lookup k (appendValue k v m)).isSome
      unfold appendValue
      split <;> simp
    | _ => simp [storeField]
  · simp [hk]

/-- Every entry leaves its number in the map. -/
theorem isSome_lookup_store (k : Int) : ∀ (es : List Entry) (m : AssocMap Int DynamicValue),
    (lookup k (es.foldl Entry.store m)).isSome ↔
      (∃ e ∈ es, e.1.fdNumber = k) ∨ (lookup k m).isSome
  | [], m => by simp
  | e :: es, m => by
    rw [List.foldl_cons, isSome_lookup_store k es, Entry.store, isSome_lookup_storeField,
      List.exists_mem_cons_iff]
    constructor
    · rintro (h | rfl | h)
      · exact Or.inl (Or.inr h)
      · exact Or.inl (Or.inl rfl)
      · exact Or.inr h
    · rintro ((h | h) | h)
      · exact Or.inr (Or.inl h.symm)
      · exact Or.inl h
      · exact Or.inr (Or.inr h)

/-- One more value of a repeated field. -/
theorem lookup_appendValue {fn : Int} {vs : List DynamicValue} (hp : Plain vs) (v : DynamicValue)
    {m : AssocMap Int DynamicValue} (h : lookup fn m = pack vs) :
    lookup fn (appendValue fn v m) = pack (vs ++ [v]) := by
  unfold appendValue
  rw [h]
  match vs with
  | [] => simp [pack]
  | [w] =>
    have hw := hp w (by simp)
    cases w with
    | dynRepeated ws => exact absurd rfl (hw ws)
    | _ => simp [pack]
  | w :: w' :: ws => simp [pack]

/-- A repeated field stores all its values, in order. -/
theorem lookup_store_repeated {fd : FieldDescriptor} (hl : fd.fdLabel = .labelRepeated) :
    ∀ (es : List Entry) (m : AssocMap Int DynamicValue) (vs : List DynamicValue),
      (∀ e ∈ es, e.1.fdNumber = fd.fdNumber → e.1 = fd) → Plain (vs ++ valuesOf fd es) →
      lookup fd.fdNumber m = pack vs →
      lookup fd.fdNumber (es.foldl Entry.store m) = pack (vs ++ valuesOf fd es)
  | [], m, vs, _, _, h => by simpa [valuesOf] using h
  | e :: es, m, vs, hu, hp, h => by
    have hu' : ∀ e ∈ es, e.1.fdNumber = fd.fdNumber → e.1 = fd :=
      fun e he => hu e (List.mem_cons_of_mem _ he)
    rw [List.foldl_cons]
    by_cases hk : e.1.fdNumber = fd.fdNumber
    · have hval : valuesOf fd (e :: es) = e.2 :: valuesOf fd es := by simp [valuesOf, hk]
      rw [hval, List.append_cons] at hp ⊢
      refine lookup_store_repeated hl es _ _ hu' hp ?_
      rw [Entry.store, hu e (by simp) hk, hl]
      exact lookup_appendValue (fun v hv => hp v (by simp [hv])) e.2 h
    · have hval : valuesOf fd (e :: es) = valuesOf fd es := by simp [valuesOf, hk]
      rw [hval] at hp ⊢
      refine lookup_store_repeated hl es _ _ hu' hp ?_
      rw [Entry.store, lookup_storeField, if_neg (Ne.symm hk), h]

/-! ## Entries of a message -/

variable (sc : Schema)

/-- The schema declares a field of the message. -/
def FieldDescriptor.Matches (fd : FieldDescriptor) (f : WireField) : Prop :=
  fd.Declares f.number f.wireType

instance (fd : FieldDescriptor) (f : WireField) : Decidable (fd.Matches f) := by
  unfold FieldDescriptor.Matches; infer_instance

/-- The entries that the declared fields among `fs` give. -/
inductive Parsed : List WireField → List Entry → Prop where
  | nil : Parsed [] []
  | skip {f : WireField} {fs : List WireField} {es : List Entry} :
    (∀ fd ∈ sc.fieldDescriptors, ¬ fd.Matches f) → Parsed fs es → Parsed (f :: fs) es
  | hit {f : WireField} {fs : List WireField} {es : List Entry} {fd : FieldDescriptor}
      {v : DynamicValue} : fd ∈ sc.fieldDescriptors → fd.Matches f → fd.fdTypeDesc.Reads f.raw v →
    Parsed fs es → Parsed (f :: fs) ((fd, v) :: es)

variable {sc} {fs : List WireField} {es : List Entry}

/-- Only one field of the schema declares a field of the message. -/
theorem FieldDescriptor.Matches.unique {fd fd' : FieldDescriptor} {f : WireField}
    (h : fd ∈ sc.fieldDescriptors) (h' : fd' ∈ sc.fieldDescriptors) (hr : fd.Matches f)
    (hn : fd'.fdNumber = f.number) : fd' = fd :=
  sc.eq_of_number h' h (hn.trans hr.1.symm)

theorem Parsed.mem (h : Parsed sc fs es) : ∀ e ∈ es, e.1 ∈ sc.fieldDescriptors := by
  induction h with
  | nil => simp
  | skip _ _ ih => exact ih
  | hit hfd _ _ _ ih =>
    intro e he
    rcases List.mem_cons.1 he with rfl | he
    · exact hfd
    · exact ih e he

/-- The numbers of the entries are those of the declared fields. -/
theorem Parsed.number_iff (h : Parsed sc fs es) (fn : Int) :
    (∃ e ∈ es, e.1.fdNumber = fn) ↔
      ∃ fd ∈ sc.fieldDescriptors, fd.fdNumber = fn ∧ ∃ f ∈ fs, fd.Matches f := by
  induction h with
  | nil => simp
  | skip hno _ ih =>
    rw [ih]
    refine exists_congr fun fd => and_congr_right fun hfd => and_congr_right fun _ => ?_
    rw [List.exists_mem_cons_iff]
    exact ⟨Or.inr, fun h => h.resolve_left (hno fd hfd)⟩
  | @hit f fs es fd v hfd hr hv _ ih =>
    rw [List.exists_mem_cons_iff, ih]
    constructor
    · rintro (rfl | ⟨fd', h', hn, f', hf', hr'⟩)
      · exact ⟨fd, hfd, rfl, f, by simp, hr⟩
      · exact ⟨fd', h', hn, f', by simp [hf'], hr'⟩
    · rintro ⟨fd', h', hn, f', hf', hr'⟩
      rcases List.mem_cons.1 hf' with rfl | hf'
      · obtain rfl := FieldDescriptor.Matches.unique hfd h' hr hr'.1
        exact Or.inl hn
      · exact Or.inr ⟨fd', h', hn, f', hf', hr'⟩

/-- The wire values of a field of the schema. -/
def occurrences (fd : FieldDescriptor) (fs : List WireField) : List DynamicValue :=
  (fs.filter fun f => fd.Matches f).map (·.raw)

/-- The entries hold the values of all occurrences. -/
theorem Parsed.values (h : Parsed sc fs es) {fd : FieldDescriptor} (hfd : fd ∈ sc.fieldDescriptors) :
    List.Forall₂ fd.fdTypeDesc.Reads (occurrences fd fs) (valuesOf fd es) := by
  induction h with
  | nil => exact List.Forall₂.nil
  | @skip f fs es hno _ ih =>
    have : occurrences fd (f :: fs) = occurrences fd fs := by
      simp [occurrences, hno fd hfd]
    rw [this]
    exact ih
  | @hit f fs es fd' v hfd' hr hv _ ih =>
    by_cases hn : fd'.fdNumber = fd.fdNumber
    · obtain rfl := sc.eq_of_number hfd' hfd hn
      have h1 : occurrences fd' (f :: fs) = f.raw :: occurrences fd' fs := by
        simp [occurrences, hr]
      have h2 : valuesOf fd' ((fd', v) :: es) = v :: valuesOf fd' es := by simp [valuesOf]
      rw [h1, h2]
      exact List.Forall₂.cons hv ih
    · have hno : ¬ fd.Matches f := fun hr' => hn (hr.1.trans hr'.1.symm)
      have h1 : occurrences fd (f :: fs) = occurrences fd fs := by simp [occurrences, hno]
      have h2 : valuesOf fd ((fd', v) :: es) = valuesOf fd es := by simp [valuesOf, hn]
      rw [h1, h2]
      exact ih

/-- The declared fields all have values. -/
def AllRead (sc : Schema) (fs : List WireField) : Prop :=
  ∀ f ∈ fs, ∀ fd ∈ sc.fieldDescriptors, fd.Matches f → ∃ v, fd.fdTypeDesc.Reads f.raw v

theorem parsed_iff : ∀ fs : List WireField, (∃ es, Parsed sc fs es) ↔ AllRead sc fs
  | [] => by
    refine ⟨fun _ f hf => absurd hf (by simp), fun _ => ⟨[], .nil⟩⟩
  | f :: fs => by
    have ih := parsed_iff fs
    constructor
    · rintro ⟨es, h⟩ g hg fd hfd hr
      cases h with
      | skip hno h =>
        rcases List.mem_cons.1 hg with rfl | hg
        · exact absurd hr (hno fd hfd)
        · exact ih.1 ⟨_, h⟩ g hg fd hfd hr
      | hit hfd' hr' hv h =>
        rcases List.mem_cons.1 hg with rfl | hg
        · obtain rfl := FieldDescriptor.Matches.unique hfd' hfd hr' hr.1
          exact ⟨_, hv⟩
        · exact ih.1 ⟨_, h⟩ g hg fd hfd hr
    · intro hall
      obtain ⟨es, h⟩ := ih.2 fun g hg => hall g (List.mem_cons_of_mem _ hg)
      by_cases hex : ∃ fd ∈ sc.fieldDescriptors, fd.Matches f
      · obtain ⟨fd, hfd, hr⟩ := hex
        obtain ⟨v, hv⟩ := hall f (by simp) fd hfd hr
        exact ⟨_, .hit hfd hr hv h⟩
      · push Not at hex
        exact ⟨es, .skip hex h⟩

/-! ## The loop -/

/-- The fields before the first group, and from it on. -/
def beforeGroup (fs : List WireField) : List WireField := fs.takeWhile fun f => ¬ f.wireType.Group

def afterGroup (fs : List WireField) : List WireField := fs.dropWhile fun f => ¬ f.wireType.Group

/-- What the loop gives is the store of the entries before the first group. -/
theorem go_sound : ∀ (n : Nat) (off : Int) (fs : List WireField) (o : Int), At bs off →
    readFields n bs off = .ok fs o → ∀ (k curIdx : Nat) (fields out : AssocMap Int DynamicValue),
      decodeDynamicWithSchema.go (compileParseTable sc) bs k off curIdx fields = .done out →
      ∃ es, Parsed sc (beforeGroup fs) es ∧ out = es.foldl Entry.store fields := by
  intro n
  induction n with
  | zero => intro off fs o _ h; cases h
  | succ n ih =>
    intro off fs o hat h k curIdx fields out hout
    obtain ⟨_, heq, hcase⟩ := readFields_ok h
    cases heq
    cases k with
    | zero => cases hout
    | succ k =>
      rcases hcase with ⟨rfl, ht⟩ | ⟨f, gs, off', off'', rfl, ht, hv, hr⟩
      · rw [go_end sc (getTagOrU_none ht)] at hout
        cases hout
        exact ⟨[], .nil, rfl⟩
      · by_cases hg : f.wireType.Group
        · rw [go_group sc hat ht hg] at hout
          cases hout
          exact ⟨[], by simpa [beforeGroup, hg] using Parsed.nil, rfl⟩
        have hbefore : beforeGroup (f :: gs) = f :: beforeGroup gs := by simp [beforeGroup, hg]
        obtain ⟨hlt, hle⟩ := getTagOrU_some hat ht
        have hat' := hat.step hlt.le hle
        obtain ⟨hlt', hle'⟩ := decodeWireValue_forward hat' hg hv
        have hat'' := hat'.step hlt'.le hle'
        rw [hbefore]
        by_cases hex : ∃ fd ∈ sc.fieldDescriptors, fd.Matches f
        · obtain ⟨fd, hfd, hd⟩ := hex
          obtain ⟨next, hgo⟩ := go_hit sc (k := k) (i := curIdx) (r := fields) hat ht hv
            hfd hd
          rw [hgo] at hout
          cases hval : fd.fdTypeDesc.value k f.raw with
          | done v =>
            rw [hval, Outcome.bind_done] at hout
            obtain ⟨es, hes, rfl⟩ := ih off'' gs o hat'' hr k next _ out hout
            exact ⟨(fd, v) :: es, .hit hfd hd ⟨k, hval⟩ hes, rfl⟩
          | _ => rw [hval] at hout; cases hout
        · push Not at hex
          rw [go_skip sc hat ht hg hv hex] at hout
          obtain ⟨es, hes, rfl⟩ := ih off'' gs o hat'' hr k curIdx fields out hout
          exact ⟨es, .skip hex hes, rfl⟩

/-- With enough steps the loop stores the entries before the first group. -/
theorem go_complete : ∀ (n : Nat) (off : Int) (fs : List WireField) (o : Int), At bs off →
    readFields n bs off = .ok fs o → ∀ es, Parsed sc (beforeGroup fs) es →
      ∃ k₀, ∀ k ≥ k₀, ∀ (curIdx : Nat) (fields : AssocMap Int DynamicValue),
        decodeDynamicWithSchema.go (compileParseTable sc) bs k off curIdx fields =
          .done (es.foldl Entry.store fields) := by
  intro n
  induction n with
  | zero => intro off fs o _ h; cases h
  | succ n ih =>
    intro off fs o hat h es hes
    obtain ⟨_, heq, hcase⟩ := readFields_ok h
    cases heq
    rcases hcase with ⟨rfl, ht⟩ | ⟨f, gs, off', off'', rfl, ht, hv, hr⟩
    · cases hes
      refine ⟨1, fun k hk curIdx fields => ?_⟩
      obtain ⟨k, rfl⟩ : ∃ j, k = j + 1 := ⟨k - 1, by omega⟩
      exact go_end sc (getTagOrU_none ht)
    · by_cases hg : f.wireType.Group
      · have hbefore : beforeGroup (f :: gs) = [] := by simp [beforeGroup, hg]
        rw [hbefore] at hes
        cases hes
        refine ⟨1, fun k hk curIdx fields => ?_⟩
        obtain ⟨k, rfl⟩ : ∃ j, k = j + 1 := ⟨k - 1, by omega⟩
        exact go_group sc hat ht hg
      have hbefore : beforeGroup (f :: gs) = f :: beforeGroup gs := by simp [beforeGroup, hg]
      obtain ⟨hlt, hle⟩ := getTagOrU_some hat ht
      have hat' := hat.step hlt.le hle
      obtain ⟨hlt', hle'⟩ := decodeWireValue_forward hat' hg hv
      have hat'' := hat'.step hlt'.le hle'
      rw [hbefore] at hes
      cases hes with
      | skip hno hes =>
        obtain ⟨k₀, hk₀⟩ := ih off'' gs o hat'' hr es hes
        refine ⟨k₀ + 1, fun k hk curIdx fields => ?_⟩
        obtain ⟨k, rfl⟩ : ∃ j, k = j + 1 := ⟨k - 1, by omega⟩
        rw [go_skip sc hat ht hg hv hno, hk₀ k (by omega)]
      | hit hfd hd hval hes =>
        obtain ⟨k₀, hk₀⟩ := ih off'' gs o hat'' hr _ hes
        obtain ⟨m, hm⟩ := hval
        refine ⟨max k₀ m + 1, fun k hk curIdx fields => ?_⟩
        obtain ⟨k, rfl⟩ : ∃ j, k = j + 1 := ⟨k - 1, by omega⟩
        obtain ⟨next, hgo⟩ := go_hit sc (k := k) (i := curIdx) (r := fields) hat ht hv
          hfd hd
        rw [hgo, FieldTypeDescriptor.value_mono (by omega) hm, Outcome.bind_done, hk₀ k (by omega)]
        rfl

end Wireform.Proto

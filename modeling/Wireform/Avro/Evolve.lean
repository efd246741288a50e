/-
  Plans carry out the rules of resolution.

  * `ResolvesTo`: what a plan is made of, one schema constructor at a time;
  * `resolveValue_iff`: a plan gives the prescribed value of a value if and only
    if the value is regular;
  * `resolution_exact`, `union_untagged`.
-/
import Wireform.Avro.Rules
import Wireform.Fallible

namespace Wireform.Avro

/-! ## What a plan is made of -/

inductive ResolvesTo : AvroType → AvroType → ResolvedSchema → Prop
  | same (t) : ResolvesTo t t .same
  | primitive {a b plan} (hne : a ≠ b) (h : resolvePrim a b = .ok plan) : ResolvesTo (.primitive a) (.primitive b) plan
  | writerUnion {ws r ps} (hne : .union ws ≠ r) (h : List.Forall₂ (fun b p => resolveSchema b r = .ok p) ws ps) :
      ResolvesTo (.union ws) r (.union ps)
  | readerUnion {w rs j} (hw : ∀ ws, w ≠ .union ws) (h : FirstMatch w rs j) : ResolvesTo w (.union rs) .same
  | record {wi wFields ri rFields ps} (hne : AvroType.record wi wFields ≠ .record ri rFields)
      (h : List.Forall₂ (fun f p => resolveOneField wFields f = .ok p) rFields ps) :
      ResolvesTo (.record wi wFields) (.record ri rFields) (.record ps)
  | enum {wi wSyms ri rSyms plan} (hne : AvroType.enum wi wSyms ≠ .enum ri rSyms)
      (h : resolveEnums wSyms ri.avroEnumName rSyms = .ok plan) : ResolvesTo (.enum wi wSyms) (.enum ri rSyms) plan
  | array {wt rt plan} (hne : wt ≠ rt) (h : resolveSchema wt rt = .ok plan) : ResolvesTo (.array wt) (.array rt) (.array plan)
  | map {wt rt plan} (hne : wt ≠ rt) (h : resolveSchema wt rt = .ok plan) : ResolvesTo (.map wt) (.map rt) (.map plan)
  | fixed {wi wSize ri rSize} (hne : AvroType.fixed wi wSize ≠ .fixed ri rSize)
      (h : wi.avroFixedName = ri.avroFixedName ∧ wSize = rSize) : ResolvesTo (.fixed wi wSize) (.fixed ri rSize) .same
  | logicalWriter {base l r plan} (hne : .logical base l ≠ r) (hr : ∀ rs, r ≠ .union rs) (h : resolveSchema base r = .ok plan) :
      ResolvesTo (.logical base l) r plan
  | logicalReader {w base l plan} (hw : ∀ ws, w ≠ .union ws) (hl : ∀ t l, w ≠ .logical t l)
      (h : resolveSchema w base = .ok plan) : ResolvesTo w (.logical base l) plan

section
variable {w r : AvroType} {plan : ResolvedSchema}

theorem resolveWriterUnion_ok {ws : List AvroType} {ps : List ResolvedSchema} :
    resolveWriterUnion ws r = .ok ps ↔ List.Forall₂ (fun b p => resolveSchema b r = .ok p) ws ps := by
  induction ws generalizing ps with
  | nil =>
    rw [resolveWriterUnion, List.forall₂_nil_left_iff]
    constructor
    · rintro ⟨⟩
      rfl
    · rintro rfl
      rfl
  | cons b ws ih =>
    rw [resolveWriterUnion, cons_ok, List.forall₂_cons_left_iff]
    simp only [ih]

theorem resolveRecords_ok {wFields rFields : List AvroField} {ps : List FieldResolution} :
    resolveRecords wFields rFields = .ok ps ↔ List.Forall₂ (fun f p => resolveOneField wFields f = .ok p) rFields ps := by
  induction rFields generalizing ps with
  | nil =>
    rw [resolveRecords, List.forall₂_nil_left_iff]
    constructor
    · rintro ⟨⟩
      rfl
    · rintro rfl
      rfl
  | cons f rFields ih =>
    rw [resolveRecords, cons_ok, List.forall₂_cons_left_iff]
    simp only [ih]

theorem findFirstMatch_some {branches : List AvroType} {n k : Nat} (h : findFirstMatch w branches n = some k) :
    ∃ j, k = n + j ∧ FirstMatch w branches j := by
  induction branches generalizing n with
  | nil =>
    rw [findFirstMatch] at h
    cases h
  | cons b branches ih =>
    rw [findFirstMatch] at h
    cases hb : resolveSchema w b with
    | ok plan =>
      rw [hb] at h
      cases h
      exact ⟨0, rfl, ⟨b, rfl, plan, hb⟩, fun k hk => absurd hk (Nat.not_lt_zero k)⟩
    | error e =>
      rw [hb] at h
      obtain ⟨j, rfl, ⟨c, hc, hres⟩, hbefore⟩ := ih h
      refine ⟨j + 1, by omega, ⟨c, by simpa using hc, hres⟩, fun k hk c' hc' => ?_⟩
      cases k with
      | zero =>
        cases hc'
        rintro ⟨plan, hplan⟩
        rw [hb] at hplan
        cases hplan
      | succ k => exact hbefore k (by omega) c' (by simpa using hc')

/-- **A plan, one constructor of the schemas at a time.** -/
theorem resolvesTo_of (h : resolveSchema w r = .ok plan) : ResolvesTo w r plan := by
  rw [resolveSchema] at h
  split_ifs at h with heq
  · cases h
    exact heq ▸ .same w
  · unfold resolve at h
    split at h
    case h_1 a b => exact .primitive (fun hab => heq (by rw [hab])) h
    case h_2 ws r =>
      obtain ⟨ps, hps, rfl⟩ := map_ok.1 h
      exact .writerUnion heq (resolveWriterUnion_ok.1 hps)
    case h_3 _ rs hw =>
      cases hfind : findFirstMatch w rs 0 with
      | none =>
        rw [hfind] at h
        cases h
      | some k =>
        rw [hfind] at h
        cases h
        obtain ⟨j, -, hj⟩ := findFirstMatch_some hfind
        exact .readerUnion (fun ws hws => hw ws hws) hj
    case h_4 =>
      obtain ⟨ps, hps, rfl⟩ := map_ok.1 h
      exact .record heq (resolveRecords_ok.1 hps)
    case h_5 => exact .enum heq h
    case h_6 wt rt =>
      obtain ⟨p, hp, rfl⟩ := map_ok.1 h
      exact .array (fun ht => heq (by rw [ht])) hp
    case h_7 wt rt =>
      obtain ⟨p, hp, rfl⟩ := map_ok.1 h
      exact .map (fun ht => heq (by rw [ht])) hp
    case h_8 =>
      unfold resolveFixed at h
      split_ifs at h with hsame
      cases h
      exact .fixed heq hsame
    case h_9 hr => exact .logicalWriter heq hr h
    case h_10 hw hl => exact .logicalReader hw hl h
    case h_11 => cases h

/-- A field of the plan of a record. -/
theorem resolveOneField_cases {wFields : List AvroField} {rField : AvroField} {p : FieldResolution}
    (h : resolveOneField wFields rField = .ok p) :
    (∃ i wField res, findFieldWithAliases wFields rField = some i ∧ wFields[i]? = some wField ∧
      resolveSchema wField.type rField.type = .ok res ∧ p = .fromWriter i res) ∨
    ∃ d, findFieldWithAliases wFields rField = none ∧ rField.info.avroFieldDefault = some d ∧
      p = .default (defaultToValue rField.type d) := by
  unfold resolveOneField at h
  cases hfind : findFieldWithAliases wFields rField with
  | some i =>
    left
    rw [hfind] at h
    simp only at h
    split at h
    case h_1 wField hw =>
      obtain ⟨res, hres, rfl⟩ := map_ok.1 h
      exact ⟨i, wField, res, rfl, hw, hres, rfl⟩
    case h_2 => cases h
  | none =>
    right
    rw [hfind] at h
    cases hd : rField.info.avroFieldDefault with
    | some d =>
      simp only [hd] at h
      cases h
      exact ⟨d, rfl, rfl, rfl⟩
    | none =>
      simp only [hd] at h
      cases h

/-! ## Carrying out a plan -/

theorem resolveBranch_of {ps : List ResolvedSchema} {i : Nat} {p : ResolvedSchema} {v : Value} (hp : ps[i]? = some p) :
    resolveBranch ps i v = resolveValue p v := by
  induction ps generalizing i with
  | nil => cases hp
  | cons q ps ih =>
    cases i with
    | zero =>
      cases hp
      rfl
    | succ i => exact ih hp

theorem plainDefault_iff {t : AvroType} {d : AvroSchema} : DefaultValue t d (defaultToValue t d) ↔ PlainDefault t d := by
  constructor
  · intro h
    generalize hv : defaultToValue t d = v at h
    induction h with
    | primitive hd => exact ⟨rfl, hd⟩
    | logical _ ih => exact ih hv
    | @union _ _ d => cases d <;> cases hv
  · intro h
    induction t, d using PlainDefault.induct with
    | case1 s d =>
      obtain ⟨rfl, hd⟩ := h
      exact .primitive hd
    | case2 base l d ih => exact .logical (ih h)
    | case3 => simp_all [PlainDefault]

/-- A plan for the schemas gives the prescribed value exactly of the regular values. -/
def Exact (w r : AvroType) : Prop :=
  ∀ plan v, resolveSchema w r = .ok plan → Conforms w v →
    ((∃ v', resolveValue plan v = .ok v' ∧ Prescribes w r v v') ↔ Regular w r v)

theorem resolveFields_iff {wFields rFields : List AvroField} {ps : List FieldResolution} {vs : List Value}
    (ih : ∀ wf ∈ wFields, ∀ rf ∈ rFields, Exact wf.type rf.type)
    (hps : List.Forall₂ (fun f p => resolveOneField wFields f = .ok p) rFields ps)
    (hvs : List.Forall₂ (fun f v => Conforms f.type v) wFields vs) :
    (∃ vs', resolveFields vs ps = .ok vs' ∧ PrescribesFields wFields vs rFields vs') ↔ RegularFields wFields vs rFields := by
  induction hps with
  | nil => exact ⟨fun _ => .nil, fun _ => ⟨[], rfl, .nil⟩⟩
  | @cons rf p rFields ps hp _ ihps =>
    have hrest := ihps fun wf hwf rf' hrf' => ih wf hwf rf' (List.mem_cons_of_mem rf hrf')
    rcases resolveOneField_cases hp with ⟨i, wf, res, hi, hf, hres, rfl⟩ | ⟨d, hi, hd, rfl⟩
    · obtain ⟨v, hv, hconf⟩ := forall₂_getElem? hvs hf
      have hone := ih wf (List.mem_of_getElem? hf) rf List.mem_cons_self res v hres hconf
      have hfield : resolveField vs (.fromWriter i res) = resolveValue res v := by rw [resolveField, hv]
      rw [resolveFields, hfield]
      constructor
      · rintro ⟨_, hok, hpres⟩
        obtain ⟨v', vs', hv', hvs', rfl⟩ := cons_ok.1 hok
        cases hpres with
        | written hi' hf' hv'' h hpres =>
          rw [hi] at hi'
          cases hi'
          rw [hf] at hf'
          cases hf'
          rw [hv] at hv''
          cases hv''
          exact .written hi hf hv (hone.1 ⟨v', hv', h⟩) (hrest.1 ⟨vs', hvs', hpres⟩)
        | missing hi' =>
          rw [hi] at hi'
          cases hi'
      · intro hreg
        cases hreg with
        | written hi' hf' hv' h hreg =>
          rw [hi] at hi'
          cases hi'
          rw [hf] at hf'
          cases hf'
          rw [hv] at hv'
          cases hv'
          obtain ⟨v', hv', hpres⟩ := hone.2 h
          obtain ⟨vs', hvs', hpres'⟩ := hrest.2 hreg
          exact ⟨v' :: vs', cons_ok.2 ⟨v', vs', hv', hvs', rfl⟩, .written hi hf hv hpres hpres'⟩
        | missing hi' =>
          rw [hi] at hi'
          cases hi'
    · rw [resolveFields, resolveField]
      constructor
      · rintro ⟨_, hok, hpres⟩
        obtain ⟨v', vs', hv', hvs', rfl⟩ := cons_ok.1 hok
        cases hv'
        cases hpres with
        | written hi' =>
          rw [hi] at hi'
          cases hi'
        | missing _ hd' h hpres =>
          rw [hd] at hd'
          cases hd'
          exact .missing hi hd (plainDefault_iff.1 h) (hrest.1 ⟨vs', hvs', hpres⟩)
      · intro hreg
        cases hreg with
        | written hi' =>
          rw [hi] at hi'
          cases hi'
        | missing _ hd' h hreg =>
          rw [hd] at hd'
          cases hd'
          obtain ⟨vs', hvs', hpres⟩ := hrest.2 hreg
          exact ⟨_, cons_ok.2 ⟨_, vs', rfl, hvs', rfl⟩, .missing hi hd (plainDefault_iff.2 h) hpres⟩

theorem resolveItems_iff {wt rt : AvroType} {res : ResolvedSchema} {vs : List Value}
    (ih : ∀ v ∈ vs, (∃ v', resolveValue res v = .ok v' ∧ Prescribes wt rt v v') ↔ Regular wt rt v) :
    (∃ vs', vs.mapM (resolveValue res) = .ok vs' ∧ PrescribesItems wt rt vs vs') ↔ RegularItems wt rt vs := by
  induction vs with
  | nil => exact ⟨fun _ => .nil, fun _ => ⟨[], rfl, .nil⟩⟩
  | cons v vs ihvs =>
    have hone := ih v List.mem_cons_self
    have hrest := ihvs fun v' hv' => ih v' (List.mem_cons_of_mem v hv')
    rw [List.mapM_cons]
    constructor
    · rintro ⟨_, hok, hpres⟩
      obtain ⟨v', vs', hv', hvs', rfl⟩ := cons_ok.1 hok
      cases hpres with
      | cons h hpres => exact .cons (hone.1 ⟨v', hv', h⟩) (hrest.1 ⟨vs', hvs', hpres⟩)
    · intro hreg
      cases hreg with
      | cons h hreg =>
        obtain ⟨v', hv', hpres⟩ := hone.2 h
        obtain ⟨vs', hvs', hpres'⟩ := hrest.2 hreg
        exact ⟨v' :: vs', cons_ok.2 ⟨v', vs', hv', hvs', rfl⟩, .cons hpres hpres'⟩

theorem resolveEntries_iff {wt rt : AvroType} {res : ResolvedSchema} {es : List (String × Value)}
    (ih : ∀ e ∈ es, (∃ v', resolveValue res e.2 = .ok v' ∧ Prescribes wt rt e.2 v') ↔ Regular wt rt e.2) :
    (∃ es', (es.mapM fun e => (fun v => (e.1, v)) <$> resolveValue res e.2) = .ok es' ∧ PrescribesEntries wt rt es es') ↔
      RegularEntries wt rt es := by
  induction es with
  | nil => exact ⟨fun _ => .nil, fun _ => ⟨[], rfl, .nil⟩⟩
  | cons e es ihes =>
    obtain ⟨key, v⟩ := e
    have hone := ih (key, v) List.mem_cons_self
    have hrest := ihes fun e he => ih e (List.mem_cons_of_mem _ he)
    rw [List.mapM_cons]
    constructor
    · rintro ⟨_, hok, hpres⟩
      obtain ⟨_, es', he', hes', rfl⟩ := cons_ok.1 hok
      obtain ⟨v', hv', rfl⟩ := map_ok.1 he'
      cases hpres with
      | cons h hpres => exact .cons (hone.1 ⟨v', hv', h⟩) (hrest.1 ⟨es', hes', hpres⟩)
    · intro hreg
      cases hreg with
      | cons h hreg =>
        obtain ⟨v', hv', hpres⟩ := hone.2 h
        obtain ⟨es', hes', hpres'⟩ := hrest.2 hreg
        exact ⟨(key, v') :: es', cons_ok.2 ⟨(key, v'), es', map_ok.2 ⟨v', hv', rfl⟩, hes', rfl⟩, .cons hpres hpres'⟩

/-- A promotion of a primitive type is carried out on every value of it. -/
theorem resolvePrim_promotes {a b : AvroSchema} {v : Value} (hne : a ≠ b) (h : resolvePrim a b = .ok plan)
    (hv : ConformsPrimitive a v) : ∃ v', resolveValue plan v = .ok v' ∧ Promotes a b v v' := by
  unfold resolvePrim at h
  split at h
  case h_7 => simp [hne] at h
  all_goals
    cases h
    cases v <;> first
      | exact hv.elim
      | exact ⟨_, rfl, by constructor⟩

/-- A symbol that is written is found by its name. -/
theorem resolveEnums_symbol {wSyms rSyms : List String} {name : String} {i : Nat}
    (h : resolveEnums wSyms name rSyms = .ok plan) (hi : i < wSyms.length) :
    ∃ sym j, wSyms[i]? = some sym ∧ (rSyms.findIdx? fun s => s = sym) = some j ∧ resolveValue plan (.enum i) = .ok (.enum j) := by
  obtain ⟨mapping, hmapping, hplan⟩ := bind_ok.1 h
  cases hplan
  obtain ⟨j, hj, hfound⟩ := forall₂_getElem? (mapM_ok.1 hmapping) (List.getElem?_eq_getElem hi)
  refine ⟨wSyms[i], j, List.getElem?_eq_getElem hi, ?_, by rw [resolveValue, hj]⟩
  cases hfind : rSyms.findIdx? fun s => s = wSyms[i] with
  | none =>
    simp only [hfind] at hfound
    cases hfound
  | some j' =>
    simp only [hfind] at hfound
    cases hfound
    rfl

/-- A value put together of parts, and of which parts. -/
theorem exists_map_iff {α : Type} {x : Except String α} {f : α → Value} {P : α → Prop} (hf : ∀ a a', f a = f a' → a = a') :
    (∃ v', f <$> x = .ok v' ∧ ∃ a, v' = f a ∧ P a) ↔ ∃ a, x = .ok a ∧ P a := by
  constructor
  · rintro ⟨_, hok, a, rfl, ha⟩
    obtain ⟨a', hx, heq⟩ := map_ok.1 hok
    exact ⟨a', hx, hf _ _ heq ▸ ha⟩
  · rintro ⟨a, hx, ha⟩
    exact ⟨f a, map_ok.2 ⟨a, hx, rfl⟩, a, rfl, ha⟩

/-- **A plan gives the prescribed value of a value if and only if the value is
    regular.** -/
theorem resolveValue_iff (w r : AvroType) : Exact w r := by
  induction hn : sizeOf w + sizeOf r using Nat.strong_induction_on generalizing w r with
  | _ n ih =>
    subst hn
    intro plan v hplan hv
    cases resolvesTo_of hplan with
    | same => exact ⟨fun _ => .same w v, fun _ => ⟨v, rfl, .same w v⟩⟩
    | primitive hne h =>
      obtain ⟨v', hv', hpromotes⟩ := resolvePrim_promotes hne h hv
      exact ⟨fun _ => .primitive, fun _ => ⟨v', hv', .primitive hpromotes⟩⟩
    | @writerUnion ws r ps hne h =>
      cases v with
      | union i u =>
        obtain ⟨b, hb, hu⟩ := conformsBranch_iff.1 hv
        obtain ⟨p, hp, hres⟩ := forall₂_getElem? h hb
        have hsize := List.sizeOf_lt_of_mem (List.mem_of_getElem? hb)
        have hbranch := ih (sizeOf b + sizeOf r) (by simp only [AvroType.union.sizeOf_spec]; omega) b r rfl p u hres hu
        rw [resolveValue, resolveBranch_of hp, regular_union_iff hne hb]
        simpa only [prescribes_union_iff hne hb] using hbranch
      | _ => exact hv.elim
    | readerUnion hw h =>
      rw [regular_into_union_iff hw]
      constructor
      · rintro ⟨v', hv', hpres⟩
        cases hv'
        exact hpres
      · intro hpres
        exact ⟨v, rfl, hpres⟩
    | @record wi wFields ri rFields ps hne h =>
      cases v with
      | record vs =>
        have hsize {wf rf : AvroField} (hwf : wf ∈ wFields) (hrf : rf ∈ rFields) :
            sizeOf wf.type + sizeOf rf.type < sizeOf (AvroType.record wi wFields) + sizeOf (AvroType.record ri rFields) := by
          have hw := wf.sizeOf_type_lt.trans (List.sizeOf_lt_of_mem hwf)
          have hr := rf.sizeOf_type_lt.trans (List.sizeOf_lt_of_mem hrf)
          simp only [AvroType.record.sizeOf_spec]
          omega
        have hfields := resolveFields_iff (fun wf hwf rf hrf => ih _ (hsize hwf hrf) wf.type rf.type rfl) h
          (conformsFields_iff.1 hv)
        rw [resolveValue, regular_record_iff hne, ← hfields]
        simp only [prescribes_record_iff hne]
        exact exists_map_iff fun _ _ => Value.record.inj
      | _ => exact hv.elim
    | enum hne h =>
      cases v with
      | enum i =>
        obtain ⟨sym, j, hsym, hj, hvalue⟩ := resolveEnums_symbol h hv
        exact ⟨fun _ => .enum, fun _ => ⟨.enum j, hvalue, .enum hne hsym hj⟩⟩
      | _ => exact hv.elim
    | @array wt rt plan hne h =>
      cases v with
      | array vs =>
        have hitems := resolveItems_iff fun v hmem =>
          ih (sizeOf wt + sizeOf rt) (by simp only [AvroType.array.sizeOf_spec]; omega) wt rt rfl plan v h (hv v hmem)
        rw [resolveValue, regular_array_iff hne, ← hitems]
        simp only [prescribes_array_iff hne]
        exact exists_map_iff fun _ _ => Value.array.inj
      | _ => exact hv.elim
    | @map wt rt plan hne h =>
      cases v with
      | map es =>
        have hentries := resolveEntries_iff fun e hmem =>
          ih (sizeOf wt + sizeOf rt) (by simp only [AvroType.map.sizeOf_spec]; omega) wt rt rfl plan e.2 h (hv e hmem)
        rw [resolveValue, regular_map_iff hne, ← hentries]
        simp only [prescribes_map_iff hne]
        exact exists_map_iff fun _ _ => Value.map.inj
      | _ => exact hv.elim
    | fixed hne h =>
      cases v with
      | fixed bs => exact ⟨fun _ => .fixed, fun _ => ⟨.fixed bs, rfl, .fixed hne h⟩⟩
      | _ => exact hv.elim
    | @logicalWriter base l r plan hne hr h =>
      rw [regular_logical_iff hne hr]
      simp only [prescribes_logical_iff hne hr]
      exact ih (sizeOf base + sizeOf r) (by simp only [AvroType.logical.sizeOf_spec]; omega) base r rfl plan v h hv
    | @logicalReader w base l plan hw hl h =>
      rw [regular_into_logical_iff hw hl]
      simp only [prescribes_into_logical_iff hw hl]
      exact ih (sizeOf w + sizeOf base) (by simp only [AvroType.logical.sizeOf_spec]; omega) w base rfl plan v h hv

/-! ## Branches of a writer -/

theorem exists_forall₂ {α β : Type} {R : α → β → Prop} {xs : List α} (h : ∀ x ∈ xs, ∃ y, R x y) :
    ∃ ys, List.Forall₂ R xs ys := by
  induction xs with
  | nil => exact ⟨[], .nil⟩
  | cons x xs ih =>
    rw [List.forall_mem_cons] at h
    obtain ⟨y, hy⟩ := h.1
    obtain ⟨ys, hys⟩ := ih h.2
    exact ⟨y :: ys, .cons hy hys⟩

/-- A writer's union is refused for any branch that cannot be resolved. -/
theorem resolvable_union_iff {ws : List AvroType} (hne : .union ws ≠ r) :
    Resolvable (.union ws) r ↔ ∀ b ∈ ws, Resolvable b r := by
  have hplan : resolveSchema (.union ws) r = .union <$> resolveWriterUnion ws r := by
    rw [resolveSchema, if_neg hne, resolve]
  unfold Resolvable
  rw [hplan]
  constructor
  · rintro ⟨plan, h⟩ b hb
    obtain ⟨ps, hps, -⟩ := map_ok.1 h
    obtain ⟨i, hi⟩ := List.getElem?_of_mem hb
    obtain ⟨p, -, hp⟩ := forall₂_getElem? (resolveWriterUnion_ok.1 hps) hi
    exact ⟨p, hp⟩
  · intro h
    obtain ⟨ps, hps⟩ := exists_forall₂ h
    exact ⟨.union ps, map_ok.2 ⟨ps, resolveWriterUnion_ok.2 hps, rfl⟩⟩

/-! ## Exactness -/

/-- **Resolution is exact on regular values, and on writer unions with no branch that
    cannot be resolved**, whatever branch a value has. -/
theorem resolution_exact {v : Value} (hv : Conforms w v) :
    (∀ plan, resolveSchema w r = .ok plan →
      ((∃ v', resolveValue plan v = .ok v' ∧ Conforms r v' ∧ Prescribes w r v v') ↔ Regular w r v)) ∧
    ∀ ws, w = .union ws → w ≠ r → (Resolvable w r ↔ ∀ b ∈ ws, Resolvable b r) := by
  constructor
  · intro plan hplan
    rw [← resolveValue_iff w r plan v hplan hv]
    exact exists_congr fun v' => and_congr_right fun _ => and_iff_right_of_imp fun h => h.conforms hv
  · rintro ws rfl hne
    exact resolvable_union_iff hne

end

theorem resolveSchema_int_long : resolveSchema (.primitive .int) (.primitive .long) = .ok .promoteIntToLong := by
  simp [resolveSchema, resolve, resolvePrim]

theorem resolution_exact_int : ∃ v', resolveValue .promoteIntToLong (.int 5) = .ok v' ∧ Conforms (.primitive .long) v' ∧
    Prescribes (.primitive .int) (.primitive .long) (.int 5) v' := by
  have hv : Conforms (.primitive .int) (.int 5) := trivial
  exact ((resolution_exact hv).1 _ resolveSchema_int_long).2 .primitive

def optionalInt : AvroType := .union [.primitive .null, .primitive .int]

/-- **A number that is read into an optional number is left without a tag**, and a union
    with a branch that the reader does not know is refused for its other values too. -/
theorem union_untagged :
    resolveSchema (.primitive .int) optionalInt = .ok .same ∧
      resolveValue .same (.int 5) = .ok (.int 5) ∧ Conforms (.primitive .int) (.int 5) ∧ ¬ Conforms optionalInt (.int 5) ∧
      Resolvable (.primitive .int) (.primitive .int) ∧
      ¬ Resolvable (.union [.primitive .int, .primitive .string]) (.primitive .int) := by
  refine ⟨?_, rfl, trivial, id, ⟨.same, by simp [resolveSchema]⟩, ?_⟩
  · simp [optionalInt, resolveSchema, resolve, findFirstMatch, resolvePrim]
  · rw [resolvable_union_iff (by simp)]
    intro h
    obtain ⟨plan, hplan⟩ := h (.primitive .string) (by simp)
    simp [resolveSchema, resolve, resolvePrim] at hplan

end Wireform.Avro

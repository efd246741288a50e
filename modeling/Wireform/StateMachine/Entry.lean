/-
  The entry recursion.

  * `addDescendants_mono`: more fuel gives the same result;
  * `EntryRule`: the induction over the recursion, and `entry_rule`: what it
    proves holds of every result;
  * `entered_superset`, `entered_mem`: bounds on what is entered.
-/
import Wireform.StateMachine.Tree
import Wireform.StateMachine.Trace

namespace Wireform.StateMachine

/-! ## Folds -/

section
variable {α β : Type}

/-- A relation for every step of a fold. -/
inductive Folds (R : α → β → β → Prop) : List α → β → β → Prop
  | nil {b : β} : Folds R [] b b
  | cons {x : α} {xs : List α} {b b₁ b' : β} (head : R x b b₁) (tail : Folds R xs b₁ b') : Folds R (x :: xs) b b'

theorem folds_of_foldlM {f : β → α → Option β} {R : α → β → β → Prop} {xs : List α} :
    ∀ {b b' : β}, (∀ x ∈ xs, ∀ b b', f b x = some b' → R x b b') → xs.foldlM f b = some b' → Folds R xs b b' := by
  induction xs with
  | nil =>
    intro b b' _ h
    cases h
    exact .nil
  | cons x xs ih =>
    intro b b' hR h
    rw [List.foldlM_cons, Option.bind_eq_bind, Option.bind_eq_some_iff] at h
    obtain ⟨b₁, hx, hxs⟩ := h
    exact .cons (hR x List.mem_cons_self b b₁ hx) (ih (fun y hy => hR y (List.mem_cons_of_mem _ hy)) hxs)

/-- What every step keeps, the fold keeps. -/
theorem Folds.keeps {R : α → β → β → Prop} {I : β → Prop} {xs : List α} {b b' : β} (h : Folds R xs b b')
    (step : ∀ x ∈ xs, ∀ b b', R x b b' → I b → I b') (h0 : I b) : I b' := by
  induction h with
  | nil => exact h0
  | cons head _ ih =>
    exact ih (fun y hy => step y (List.mem_cons_of_mem _ hy)) (step _ List.mem_cons_self _ _ head h0)

theorem foldlM_mono {f g : β → α → Option β} {xs : List α} (hfg : ∀ b, ∀ x ∈ xs, ∀ b', f b x = some b' → g b x = some b') :
    ∀ {b b' : β}, xs.foldlM f b = some b' → xs.foldlM g b = some b' := by
  induction xs with
  | nil => exact fun h => h
  | cons x xs ih =>
    intro b b' h
    rw [List.foldlM_cons, Option.bind_eq_bind, Option.bind_eq_some_iff] at h ⊢
    obtain ⟨b₁, hx, hxs⟩ := h
    exact ⟨b₁, hfg b x List.mem_cons_self b₁ hx, ih (fun b y hy => hfg b y (List.mem_cons_of_mem _ hy)) hxs⟩

/-- A fold whose steps each have a result with enough fuel has one. -/
theorem foldlM_ends {f : Nat → β → α → Option β} {I : β → Prop} {xs : List α}
    (mono : ∀ {k l b x b'}, k ≤ l → f k b x = some b' → f l b x = some b')
    (step : ∀ x ∈ xs, ∀ b, I b → ∃ k b', f k b x = some b' ∧ I b') :
    ∀ {b : β}, I b → ∃ k b', xs.foldlM (f k) b = some b' ∧ I b' := by
  induction xs with
  | nil => exact fun {b} hb => ⟨0, b, rfl, hb⟩
  | cons x xs ih =>
    intro b hb
    obtain ⟨k, b₁, hx, hb₁⟩ := step x List.mem_cons_self b hb
    obtain ⟨l, b', hxs, hb'⟩ := ih (fun y hy => step y (List.mem_cons_of_mem _ hy)) hb₁
    refine ⟨max k l, b', ?_, hb'⟩
    rw [List.foldlM_cons, mono (Nat.le_max_left k l) hx]
    exact foldlM_mono (fun b y _ b' => mono (Nat.le_max_right k l)) hxs

end

section
variable {c : RChart} {hist : History}

/-! ## Fuel -/

theorem completeRegions_mono {f g : NodeName → Config → Option Config} (hfg : ∀ n a b, f n a = some b → g n a = some b)
    {p : NodeName} {a b : Config} (h : completeRegions c f p a = some b) : completeRegions c g p a = some b := by
  refine foldlM_mono (fun a r _ b hr => ?_) h
  split_ifs at hr ⊢
  · exact hr
  · exact hfg r a b hr

theorem addAncestors_mono {f g : NodeName → Config → Option Config} (hfg : ∀ n a b, f n a = some b → g n a = some b)
    {n upTo : NodeName} {a b : Config} (h : addAncestors c f n upTo a = some b) : addAncestors c g n upTo a = some b := by
  refine foldlM_mono (fun a anc _ b hanc => ?_) h
  split_ifs at hanc ⊢
  · exact hanc
  · exact completeRegions_mono hfg hanc
  · exact hanc

theorem addDescendants_succ {k : Nat} : ∀ {n : NodeName} {a b : Config},
    addDescendants c hist k n a = some b → addDescendants c hist (k + 1) n a = some b := by
  induction k with
  | zero =>
    intro n a b h
    cases h
  | succ k ih =>
    intro n a b h
    rw [addDescendants] at h ⊢
    split at h
    · rw [Option.bind_eq_bind, Option.bind_eq_some_iff] at h ⊢
      obtain ⟨a', hdesc, hanc⟩ := h
      exact ⟨a', foldlM_mono (fun _ _ _ _ => ih) hdesc,
        foldlM_mono (fun _ _ _ _ => addAncestors_mono fun _ _ _ => ih) hanc⟩
    · rw [Option.bind_eq_bind, Option.bind_eq_some_iff] at h ⊢
      obtain ⟨a', hdesc, hanc⟩ := h
      exact ⟨a', ih hdesc, addAncestors_mono (fun _ _ _ => ih) hanc⟩
    · exact completeRegions_mono (fun _ _ _ => ih) h
    · exact h

/-- **More fuel gives the same result.** -/
theorem addDescendants_mono {k l : Nat} (hkl : k ≤ l) {n : NodeName} {a b : Config}
    (h : addDescendants c hist k n a = some b) : addDescendants c hist l n a = some b := by
  induction hkl with
  | refl => exact h
  | step _ ih => exact addDescendants_succ ih

theorem entrySetFor_mono {k l : Nat} (hkl : k ≤ l) {src : NodeName} {t : RTrans} {b : Config}
    (h : entrySetFor c hist k src t = some b) : entrySetFor c hist l src t = some b := by
  rw [entrySetFor] at h ⊢
  split_ifs at h ⊢
  · exact h
  · rw [Option.bind_eq_bind, Option.bind_eq_some_iff] at h ⊢
    obtain ⟨a, hdesc, hanc⟩ := h
    exact ⟨a, foldlM_mono (fun _ _ _ _ => addDescendants_mono hkl) hdesc,
      foldlM_mono (fun _ _ _ _ => addAncestors_mono fun _ _ _ => addDescendants_mono hkl) hanc⟩

/-! ## The rule -/

/-- Does a region have an entrant? -/
def Entrant (c : RChart) (r : NodeName) (a : Config) : Prop := ∃ x ∈ a, x = r ∨ isDescendantOf c x r = true

/-- The regions of a parallel state, entered where they have no entrant. -/
def Completes (c : RChart) (Spec : NodeName → Config → Config → Prop) (p : NodeName) : Config → Config → Prop :=
  Folds (fun r a b => (Entrant c r a ∧ b = a) ∨ (¬Entrant c r a ∧ Spec r a b)) (regionsOf c p)

/-- The ancestors of a state below a bound. -/
def Climbs (c : RChart) (Spec : NodeName → Config → Config → Prop) (upTo n : NodeName) : Config → Config → Prop :=
  Folds (fun anc a b => (anc = rootName ∧ b = a) ∨
    (anc ≠ rootName ∧ isParallel c anc = true ∧ Completes c Spec anc (OrderedSet.insert anc a) b) ∨
    (anc ≠ rootName ∧ isParallel c anc = false ∧ b = OrderedSet.insert anc a))
    ((properAncestors c n).takeWhile (· ≠ upTo))

/-- What has to be shown of a specification of `addDescendants`, by the kind of the
    state. -/
structure EntryRule (c : RChart) (hist : History) (Spec : NodeName → Config → Config → Prop) : Prop where
  leaf : ∀ {n a}, isHistory c n = false → isCompound c n = false → isParallel c n = false → Spec n a (OrderedSet.insert n a)
  compound : ∀ {n ini a b b'}, nodeKindOf c n = some (.compound ini) → Spec ini (OrderedSet.insert n a) b →
    Climbs c Spec n ini b b' → Spec n a b'
  parallel : ∀ {n a b}, nodeKindOf c n = some .parallel → Completes c Spec n (OrderedSet.insert n a) b → Spec n a b
  history : ∀ {n k d a b b'}, nodeKindOf c n = some (.history k d) →
    Folds Spec (historyTargets c hist n d) a b →
    Folds (Climbs c Spec ((parentOf c n).getD rootName)) (historyTargets c hist n d) b b' → Spec n a b'

theorem completes_of {Spec : NodeName → Config → Config → Prop} {f : NodeName → Config → Option Config}
    (hf : ∀ n a b, f n a = some b → Spec n a b) {p : NodeName} {a b : Config} (h : completeRegions c f p a = some b) :
    Completes c Spec p a b := by
  refine folds_of_foldlM (fun r _ a b hr => ?_) h
  have hiff : (a.any fun x => decide (x = r) || isDescendantOf c x r) = true ↔ Entrant c r a := by
    simp [Entrant]
  split_ifs at hr with hent
  · cases hr
    exact Or.inl ⟨hiff.1 hent, rfl⟩
  · exact Or.inr ⟨mt hiff.2 hent, hf r a b hr⟩

theorem climbs_of {Spec : NodeName → Config → Config → Prop} {f : NodeName → Config → Option Config}
    (hf : ∀ n a b, f n a = some b → Spec n a b) {n upTo : NodeName} {a b : Config} (h : addAncestors c f n upTo a = some b) :
    Climbs c Spec upTo n a b := by
  refine folds_of_foldlM (fun anc _ a b hanc => ?_) h
  split_ifs at hanc with hroot hpar
  · cases hanc
    exact Or.inl ⟨hroot, rfl⟩
  · exact Or.inr (Or.inl ⟨hroot, hpar, completes_of hf hanc⟩)
  · cases hanc
    exact Or.inr (Or.inr ⟨hroot, Bool.not_eq_true _ ▸ hpar, rfl⟩)

/-- **The induction over the entry recursion.** -/
theorem entry_rule {Spec : NodeName → Config → Config → Prop} (rule : EntryRule c hist Spec) {fuel : Nat} :
    ∀ {n : NodeName} {a b : Config}, addDescendants c hist fuel n a = some b → Spec n a b := by
  induction fuel with
  | zero =>
    intro n a b h
    cases h
  | succ k ih =>
    intro n a b h
    rw [addDescendants] at h
    split at h
    · rename_i kind d hkind
      rw [Option.bind_eq_bind, Option.bind_eq_some_iff] at h
      obtain ⟨a', hdesc, hanc⟩ := h
      exact rule.history hkind (folds_of_foldlM (fun _ _ _ _ => ih) hdesc)
        (folds_of_foldlM (fun _ _ _ _ => climbs_of fun _ _ _ => ih) hanc)
    · rename_i ini hkind
      rw [Option.bind_eq_bind, Option.bind_eq_some_iff] at h
      obtain ⟨a', hdesc, hanc⟩ := h
      exact rule.compound hkind (ih hdesc) (climbs_of (fun _ _ _ => ih) hanc)
    · rename_i hkind
      exact rule.parallel hkind (completes_of (fun _ _ _ => ih) h)
    · rename_i hhist hcomp hpar
      cases h
      refine rule.leaf ?_ ?_ ?_
      · unfold isHistory
        split
        · rename_i hk
          exact absurd hk (hhist _ _)
        · rfl
      · unfold isCompound
        split
        · rename_i hk
          exact absurd hk (hcomp _)
        · rfl
      · rw [isParallel, beq_eq_false_iff_ne]
        exact hpar

/-! ## What is entered -/

theorem Folds.exists {α β : Type} {R : α → β → β → Prop} {xs : List α} {b b' : β} (h : Folds R xs b b') :
    ∀ x ∈ xs, ∃ b₁ b₂, R x b₁ b₂ := by
  induction h with
  | nil => exact fun x hx => absurd hx List.not_mem_nil
  | cons head _ ih =>
    intro x hx
    rcases List.mem_cons.1 hx with rfl | hx
    · exact ⟨_, _, head⟩
    · exact ih x hx

/-- What entries keep, the completion of regions keeps. -/
theorem Completes.keeps {Spec : NodeName → Config → Config → Prop} {I : Config → Prop} {p : NodeName} {a b : Config}
    (h : Completes c Spec p a b) (enter : ∀ r ∈ regionsOf c p, ∀ a b, Spec r a b → I a → I b) (h0 : I a) : I b := by
  refine Folds.keeps h (fun r hr a b hab ha => ?_) h0
  rcases hab with ⟨-, rfl⟩ | ⟨-, hspec⟩
  · exact ha
  · exact enter r hr a b hspec ha

/-- What entries and ancestors keep, the climb keeps. -/
theorem Climbs.keeps {Spec : NodeName → Config → Config → Prop} {I : Config → Prop} {n upTo : NodeName} {a b : Config}
    (h : Climbs c Spec upTo n a b)
    (insert : ∀ anc ∈ (properAncestors c n).takeWhile (· ≠ upTo), anc ≠ rootName → ∀ a, I a → I (OrderedSet.insert anc a))
    (enter : ∀ anc ∈ (properAncestors c n).takeWhile (· ≠ upTo), isParallel c anc = true → ∀ r ∈ regionsOf c anc,
      ∀ a b, Spec r a b → I a → I b) (h0 : I a) : I b := by
  refine Folds.keeps h (fun anc hanc a b hab ha => ?_) h0
  rcases hab with ⟨-, rfl⟩ | ⟨hroot, hpar, hcomp⟩ | ⟨hroot, -, rfl⟩
  · exact ha
  · exact hcomp.keeps (enter anc hanc hpar) (insert anc hanc hroot a ha)
  · exact insert anc hanc hroot a ha

theorem parallel_not_history {n : NodeName} (h : nodeKindOf c n = some .parallel) : isHistory c n = false := by
  rw [isHistory, h]

theorem compound_not_history {n ini : NodeName} (h : nodeKindOf c n = some (.compound ini)) : isHistory c n = false := by
  rw [isHistory, h]

/-- Nothing is lost, and a state that is no history state is entered. -/
theorem entered_superset {fuel : Nat} {n : NodeName} {a b : Config} (h : addDescendants c hist fuel n a = some b) :
    (∀ x ∈ a, x ∈ b) ∧ (isHistory c n = false → n ∈ b) := by
  have insert {anc : NodeName} {s t : Config} (hst : ∀ x ∈ s, x ∈ t) : ∀ x ∈ s, x ∈ OrderedSet.insert anc t :=
    fun x hx => OrderedSet.mem_insert.2 (Or.inr (hst x hx))
  refine @entry_rule c hist (fun n a b => (∀ x ∈ a, x ∈ b) ∧ (isHistory c n = false → n ∈ b)) ?_ fuel n a b h
  constructor
  · exact fun _ _ _ => ⟨insert fun _ hx => hx, fun _ => OrderedSet.mem_insert.2 (Or.inl rfl)⟩
  · intro n ini a b b' _ hini hclimb
    have hsub : ∀ x ∈ b, x ∈ b' := by
      refine hclimb.keeps (I := fun t => ∀ x ∈ b, x ∈ t) (fun _ _ _ t ht => insert ht) ?_ fun _ hx => hx
      exact fun _ _ _ _ _ s t hst hs x hx => hst.1 x (hs x hx)
    refine ⟨fun x hx => hsub x (hini.1 x (OrderedSet.mem_insert.2 (Or.inr hx))), fun _ => ?_⟩
    exact hsub n (hini.1 n (OrderedSet.mem_insert.2 (Or.inl rfl)))
  · intro n a b _ hcomp
    have hsub : ∀ x ∈ OrderedSet.insert n a, x ∈ b :=
      hcomp.keeps (I := fun t => ∀ x ∈ OrderedSet.insert n a, x ∈ t)
        (fun _ _ s t hst hs x hx => hst.1 x (hs x hx)) fun _ hx => hx
    exact ⟨fun x hx => hsub x (OrderedSet.mem_insert.2 (Or.inr hx)), fun _ => hsub n (OrderedSet.mem_insert.2 (Or.inl rfl))⟩
  · intro n k d a b b' hkind hdesc hanc
    have hsub : ∀ x ∈ a, x ∈ b :=
      hdesc.keeps (I := fun t => ∀ x ∈ a, x ∈ t) (fun _ _ s t hst hs x hx => hst.1 x (hs x hx)) fun _ hx => hx
    have hsub' : ∀ x ∈ a, x ∈ b' := by
      refine hanc.keeps (I := fun t => ∀ x ∈ a, x ∈ t) (fun _ _ s t hclimb hs => ?_) hsub
      refine hclimb.keeps (I := fun t => ∀ x ∈ a, x ∈ t) (fun _ _ _ t ht => insert ht) ?_ hs
      exact fun _ _ _ _ _ s t hst hs x hx => hst.1 x (hs x hx)
    refine ⟨hsub', fun hfalse => ?_⟩
    rw [isHistory, hkind] at hfalse
    cases hfalse

theorem WellFormed.region_known (hw : WellFormed c) {p r : NodeName} (hr : r ∈ regionsOf c p) :
    Known c r ∧ isHistory c r = false ∧ parentOf c r = some p := by
  obtain ⟨hmem, hh⟩ := List.mem_filter.1 hr
  obtain ⟨nd, hnd, hpar⟩ := hw.child hmem
  exact ⟨known_of_lookup hnd, by simpa using hh, parentOf_some.2 ⟨nd, hnd, hpar⟩⟩

/-- The parent of a state bounds its climb at once. -/
theorem climbs_child (hw : WellFormed c) {Spec : NodeName → Config → Config → Prop} {n m : NodeName} {a b : Config}
    (hm : parentOf c m = some n) (h : Climbs c Spec n m a b) : b = a := by
  have hnil : (properAncestors c m).takeWhile (· ≠ n) = [] := by
    rw [hw.properAncestors_eq, Forest.ancestors_of_some (F := hw.forest) hm, List.takeWhile_cons_of_neg (by simp)]
  rw [Climbs, hnil] at h
  cases h
  rfl

/-- **A bound on what is entered**: `P` is closed under the recursion, and `Q` holds
    of what it inserts. -/
theorem entered_mem (hw : WellFormed c) {P Q : NodeName → Prop} (own : ∀ {x}, P x → isHistory c x = false → Q x)
    (initial : ∀ {n ini}, P n → nodeKindOf c n = some (.compound ini) → P ini)
    (region : ∀ {p r}, Q p → nodeKindOf c p = some .parallel → r ∈ regionsOf c p → P r)
    (target : ∀ {n k d}, P n → nodeKindOf c n = some (.history k d) → ∀ t ∈ historyTargets c hist n d,
      P t ∧ ∀ y ∈ (properAncestors c t).takeWhile (· ≠ (parentOf c n).getD rootName), y ≠ rootName → Q y)
    {fuel : Nat} {n : NodeName} {a b : Config} (h : addDescendants c hist fuel n a = some b) (hn : P n) :
    ∀ x ∈ b, x ∈ a ∨ Q x := by
  refine @entry_rule c hist (fun n a b => P n → ∀ x ∈ b, x ∈ a ∨ Q x) ?_ fuel n a b h hn
  have insert {n : NodeName} {s t : Config} (hn : Q n) (hst : ∀ x ∈ t, x ∈ s ∨ Q x) :
      ∀ x ∈ OrderedSet.insert n t, x ∈ s ∨ Q x := by
    intro x hx
    rcases OrderedSet.mem_insert.1 hx with rfl | hx
    · exact Or.inr hn
    · exact hst x hx
  have trans {s t u : Config} (hst : ∀ x ∈ t, x ∈ s ∨ Q x) (htu : ∀ x ∈ u, x ∈ t ∨ Q x) : ∀ x ∈ u, x ∈ s ∨ Q x := by
    intro x hx
    rcases htu x hx with hx | hx
    · exact hst x hx
    · exact Or.inr hx
  constructor
  · intro n a hh _ _ hn
    exact insert (own hn hh) fun x hx => Or.inl hx
  · intro n ini a b b' hk hini hclimb hn
    obtain ⟨nd, hnd, hpar⟩ := hw.child (hw.compound_initial hk)
    rw [climbs_child hw (parentOf_some.2 ⟨nd, hnd, hpar⟩) hclimb]
    exact trans (insert (own hn (compound_not_history hk)) fun x hx => Or.inl hx) (hini (initial hn hk))
  · intro n a b hk hcomp hn
    have hQ := own hn (parallel_not_history hk)
    exact hcomp.keeps (I := fun t => ∀ x ∈ t, x ∈ a ∨ Q x)
      (fun r hr s t hst hs => trans hs (hst (region hQ hk hr))) (insert hQ fun x hx => Or.inl hx)
  · intro n k d a b b' hk hdesc hanc hn
    have hb : ∀ x ∈ b, x ∈ a ∨ Q x :=
      hdesc.keeps (I := fun t => ∀ x ∈ t, x ∈ a ∨ Q x)
        (fun t ht s u hst hs => trans hs (hst (target hn hk t ht).1)) fun x hx => Or.inl hx
    refine hanc.keeps (I := fun t => ∀ x ∈ t, x ∈ a ∨ Q x) (fun t ht s u hclimb hs => ?_) hb
    refine hclimb.keeps (I := fun t => ∀ x ∈ t, x ∈ a ∨ Q x) (fun anc hanc hroot v hv => insert ((target hn hk t ht).2 anc hanc hroot) hv) ?_ hs
    intro anc hanc hpar r hr v v' hspec hv
    have hroot : anc ≠ rootName := by
      rintro rfl
      rw [isParallel, nodeKindOf, hw.root] at hpar
      cases hpar
    exact trans hv (hspec (region ((target hn hk t ht).2 anc hanc hroot) (beq_iff_eq.1 hpar) hr))

end

end Wireform.StateMachine

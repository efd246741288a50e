/-
  Configurations and histories over the states of a chart.

  * `Real`, `Over`: a machine names states of the chart, and none of the active
    ones is a history state;
  * `RecordedFrom`: the histories that recording can make of one;
  * `entered_real`, `entrySetFor_real`: what is entered is real;
  * `IsMicro.over`: a microstep stays over the chart.
-/
import Wireform.StateMachine.Entry

namespace Wireform.StateMachine

/-! ## States -/

/-- A state of the chart, no history state. -/
structure Real (c : RChart) (x : NodeName) : Prop where
  known : Known c x
  real : isHistory c x = false

/-- A configuration and a history over the chart. -/
structure Over (c : RChart) (cfg : Config) (hist : History) : Prop where
  active : ∀ x ∈ cfg, Real c x
  stored : ∀ h set, hist.lookup h = some set → ∀ x ∈ set, Known c x

/-- The histories that recording can make of `hist0`. -/
def RecordedFrom (c : RChart) (hist0 hist : History) : Prop :=
  ∀ h, hist.lookup h = hist0.lookup h ∨ ∃ p k d cfg, nodeKindOf c h = some (.history k d) ∧ parentOf c h = some p ∧
    (∀ x ∈ cfg, Real c x) ∧ hist.lookup h = some (recorded c cfg p k)

section
variable {c : RChart} {hist hist0 : History} {cfg : Config}

theorem RecordedFrom.refl (c : RChart) (hist : History) : RecordedFrom c hist hist := fun _ => Or.inl rfl

theorem recorded_subset {p x : NodeName} {k : HistoryKind} (h : x ∈ recorded c cfg p k) : x ∈ cfg := by
  cases k with
  | shallow => exact List.contains_iff_mem.1 (List.mem_filter.1 (OrderedSet.mem_fromList.1 h)).2
  | deep =>
    obtain ⟨-, hd⟩ := List.mem_filter.1 (OrderedSet.mem_fromList.1 h)
    exact List.contains_iff_mem.1 (Bool.and_eq_true_iff.1 hd).1

/-- The stored sets of a history that was recorded are known where the first ones
    are. -/
theorem RecordedFrom.stored (h : RecordedFrom c hist0 hist) (h0 : ∀ h set, hist0.lookup h = some set → ∀ x ∈ set, Known c x) :
    ∀ h set, hist.lookup h = some set → ∀ x ∈ set, Known c x := by
  intro n set hset x hx
  rcases h n with heq | ⟨p, k, d, cfg, -, -, hcfg, heq⟩
  · exact h0 n set (heq ▸ hset) x hx
  · rw [heq] at hset
    cases hset
    exact (hcfg x (recorded_subset hx)).known

theorem RecordedFrom.record (hw : WellFormed c) (h : RecordedFrom c hist0 hist) (hcfg : ∀ x ∈ cfg, Real c x) (e : NodeName) :
    RecordedFrom c hist0 (recordHistory c cfg hist e) := by
  unfold recordHistory
  have hkids : ∀ m ∈ childrenOf c e, parentOf c m = some e := fun m hm => hw.mem_childrenOf.1 hm
  generalize childrenOf c e = kids at hkids
  induction kids generalizing hist with
  | nil => exact h
  | cons m kids ih =>
    rw [List.foldl_cons]
    refine ih ?_ fun m' hm' => hkids m' (List.mem_cons_of_mem _ hm')
    split
    · rename_i k d hk
      intro n
      rw [AssocMap.lookup_insert]
      split_ifs with hn
      · subst hn
        exact Or.inr ⟨e, k, d, cfg, hk, hkids n List.mem_cons_self, hcfg, rfl⟩
      · exact h n
    · exact h

theorem RecordedFrom.after (hw : WellFormed c) (h : RecordedFrom c hist0 hist) (hcfg : ∀ x ∈ cfg, Real c x)
    (sel : List (NodeName × RTrans)) : RecordedFrom c hist0 (historyAfter c cfg hist sel) := by
  unfold historyAfter
  generalize sortByExitOrder c (exitSetOf c cfg hist sel) = es
  induction es generalizing hist with
  | nil => exact h
  | cons e es ih =>
    rw [List.foldl_cons]
    exact ih (h.record hw hcfg e)

/-! ## Entries -/

/-- A state with something below it is real. -/
theorem WellFormed.above_real (hw : WellFormed c) {x y : NodeName} (h : hw.forest.Under x y) (hy : y ≠ rootName) : Real c y := by
  refine ⟨(hw.above_known h).resolve_left hy, ?_⟩
  obtain ⟨m, hm, -⟩ := Forest.exists_child h
  rcases hw.parent_kind (hw.mem_childrenOf.2 hm) with hroot | ⟨ini, hk⟩ | hk
  · exact absurd hroot hy
  · exact compound_not_history hk
  · exact parallel_not_history hk

theorem WellFormed.takeWhile_real (hw : WellFormed c) {x y upTo : NodeName}
    (h : y ∈ (properAncestors c x).takeWhile (· ≠ upTo)) (hy : y ≠ rootName) : Real c y :=
  hw.above_real (hw.mem_properAncestors.1 ((List.takeWhile_prefix _).subset h)) hy

theorem historyTargets_known (hw : WellFormed c) (hs : ∀ h set, hist.lookup h = some set → ∀ x ∈ set, Known c x)
    {n : NodeName} {k : HistoryKind} {d : Option NodeName} (hk : nodeKindOf c n = some (.history k d)) :
    ∀ t ∈ historyTargets c hist n d, Known c t := by
  intro t ht
  unfold historyTargets at ht
  split at ht
  · rename_i stored hstored
    exact hs n stored (Option.filter_eq_some_iff.1 hstored).1 t ht
  · split at ht
    · rename_i d'
      rw [List.mem_singleton.1 ht]
      obtain ⟨nd, hnd, hkind⟩ := Option.map_eq_some_iff.1 hk
      exact hw.default hnd hkind
    · split at ht
      · rename_i ini hk'
        rw [List.mem_singleton.1 ht]
        obtain ⟨nd, hnd, -⟩ := hw.child (hw.compound_initial hk')
        exact known_of_lookup hnd
      · exact (hw.region_known ht).1
      · cases ht

/-- **What is entered is real.** -/
theorem entered_real (hw : WellFormed c) (hs : ∀ h set, hist.lookup h = some set → ∀ x ∈ set, Known c x) {fuel : Nat}
    {n : NodeName} {a b : Config} (h : addDescendants c hist fuel n a = some b) (hn : Known c n) :
    ∀ x ∈ b, x ∈ a ∨ Real c x := by
  refine entered_mem hw (fun hx hh => ⟨hx, hh⟩) ?_ ?_ ?_ h hn
  · intro n ini _ hk
    obtain ⟨nd, hnd, -⟩ := hw.child (hw.compound_initial hk)
    exact known_of_lookup hnd
  · exact fun _ _ hr => (hw.region_known hr).1
  · exact fun {n k d} _ hk t ht => ⟨historyTargets_known hw hs hk t ht, fun y hy => hw.takeWhile_real hy⟩

theorem foldlM_keeps {α β : Type} {f : β → α → Option β} {I : β → Prop} {xs : List α} {b b' : β}
    (h : xs.foldlM f b = some b') (step : ∀ x ∈ xs, ∀ b b', f b x = some b' → I b → I b') (h0 : I b) : I b' :=
  (folds_of_foldlM (fun _ _ _ _ hx => hx) h : Folds (fun x b b' => f b x = some b') xs b b').keeps step h0

theorem addAncestors_real (hw : WellFormed c) (hs : ∀ h set, hist.lookup h = some set → ∀ x ∈ set, Known c x) {fuel : Nat}
    {n upTo : NodeName} {a b : Config} (h : addAncestors c (addDescendants c hist fuel) n upTo a = some b)
    (ha : ∀ x ∈ a, Real c x) : ∀ x ∈ b, Real c x := by
  refine (climbs_of (fun _ _ _ h => h) h).keeps (I := fun a => ∀ x ∈ a, Real c x) ?_ ?_ ha
  · intro anc hanc hroot a ha x hx
    rcases OrderedSet.mem_insert.1 hx with rfl | hx
    · exact hw.takeWhile_real hanc hroot
    · exact ha x hx
  · intro anc _ _ r hr a b hab ha x hx
    exact (entered_real hw hs hab (hw.region_known hr).1 x hx).elim (ha x) id

theorem entrySetFor_real (hw : WellFormed c) (hs : ∀ h set, hist.lookup h = some set → ∀ x ∈ set, Known c x) {fuel : Nat}
    {src : NodeName} {t : RTrans} (ht : ∀ n ∈ t.targets, Known c n) {b : Config} (h : entrySetFor c hist fuel src t = some b) :
    ∀ x ∈ b, Real c x := by
  rw [entrySetFor] at h
  split_ifs at h
  · cases h
    exact fun x hx => absurd hx List.not_mem_nil
  · rw [Option.bind_eq_bind, Option.bind_eq_some_iff] at h
    obtain ⟨a, hdesc, hanc⟩ := h
    have ha : ∀ x ∈ a, Real c x := by
      refine foldlM_keeps (I := fun a => ∀ x ∈ a, Real c x) hdesc (fun n hn a b hab ha x hx => ?_)
        fun x hx => absurd hx List.not_mem_nil
      exact (entered_real hw hs hab (ht n hn) x hx).elim (ha x) id
    exact foldlM_keeps (I := fun a => ∀ x ∈ a, Real c x) hanc
      (fun n _ a b hab ha => addAncestors_real hw hs hab ha) ha

theorem mapM_mem {α β : Type} {f : α → Option β} {xs : List α} : ∀ {ys : List β}, xs.mapM f = some ys →
    ∀ y ∈ ys, ∃ x ∈ xs, f x = some y := by
  induction xs with
  | nil =>
    intro ys h y hy
    cases h
    exact absurd hy List.not_mem_nil
  | cons x xs ih =>
    intro ys h y hy
    rw [List.mapM_cons, Option.bind_eq_bind, Option.bind_eq_some_iff] at h
    obtain ⟨z, hz, h⟩ := h
    rw [Option.bind_eq_bind, Option.bind_eq_some_iff] at h
    obtain ⟨zs, hzs, h⟩ := h
    cases h
    rcases List.mem_cons.1 hy with rfl | hy
    · exact ⟨x, List.mem_cons_self, hz⟩
    · obtain ⟨x', hx', hfx'⟩ := ih hzs y hy
      exact ⟨x', List.mem_cons_of_mem _ hx', hfx'⟩

theorem mem_exitSetFor {s x : NodeName} {t : RTrans} :
    x ∈ exitSetFor c hist cfg s t ↔ t.targets ≠ [] ∧ x ∈ cfg ∧ isDescendantOf c x (domainFor c hist s t) = true := by
  unfold exitSetFor
  split_ifs with hnil
  · simp [List.isEmpty_iff.1 hnil]
  · rw [List.mem_filter]
    exact (and_iff_right (mt List.isEmpty_iff.2 hnil)).symm

theorem mem_exitSetOf {sel : List (NodeName × RTrans)} {x : NodeName} :
    x ∈ exitSetOf c cfg hist sel ↔ ∃ e ∈ sel, x ∈ exitSetFor c hist cfg e.1 e.2 := by
  rw [exitSetOf, OrderedSet.mem_unions]
  simp

/-- A set of entered states is the union of the transitions' ones. -/
theorem mem_entrySetOf {fuel : Nat} {sel : List (NodeName × RTrans)} {set : Config}
    (h : entrySetOf c hist fuel sel = some set) {x : NodeName} (hx : x ∈ set) :
    ∃ e ∈ sel, ∃ s, entrySetFor c hist fuel e.1 e.2 = some s ∧ x ∈ s := by
  obtain ⟨ss, hss, rfl⟩ := Option.map_eq_some_iff.1 h
  obtain ⟨s, hs, hxs⟩ := OrderedSet.mem_unions.1 hx
  obtain ⟨e, he, hes⟩ := mapM_mem hss s hs
  exact ⟨e, he, s, hes, hxs⟩

theorem mem_removeConflicts {ts : List (NodeName × RTrans)} {e : NodeName × RTrans} (h : e ∈ removeConflicts c cfg hist ts) :
    e ∈ ts := by
  have hgo (ts kept : List (NodeName × RTrans)) (h : e ∈ removeConflicts.go c cfg hist kept ts) : e ∈ kept ∨ e ∈ ts := by
    induction ts generalizing kept with
    | nil => exact Or.inl (List.mem_reverse.1 h)
    | cons t ts ih =>
      rw [removeConflicts.go] at h
      split at h
      · exact (ih kept h).imp_right (List.mem_cons_of_mem _)
      · rcases ih _ h with hmem | hmem
        · rcases List.mem_cons.1 hmem with rfl | hmem
          · exact Or.inr List.mem_cons_self
          · exact Or.inl (List.mem_filter.1 hmem).1
        · exact Or.inr (List.mem_cons_of_mem _ hmem)
  exact (hgo ts [] h).resolve_left List.not_mem_nil

theorem Picked.targets (hw : WellFormed c) {e : NodeName × RTrans} (h : Picked c cfg e) : ∀ n ∈ e.2.targets, Known c n := by
  obtain ⟨_, _, _, _, ht⟩ := h
  exact fun n hn => hw.targets ht hn

/-- **A microstep stays over the chart.** -/
theorem IsMicro.over (hw : WellFormed c) {cfg' : Config} {hist' : History} {mt : MicroTrace}
    (h : IsMicro c cfg hist mt cfg' hist') (ho : Over c cfg hist) : Over c cfg' hist' := by
  have hs : ∀ h set, hist'.lookup h = some set → ∀ x ∈ set, Known c x := by
    rw [h.after]
    exact ((RecordedFrom.refl c hist).after hw ho.active _).stored ho.stored
  refine ⟨fun x hx => ?_, hs⟩
  rw [h.next, MicroTrace.mem_after] at hx
  rcases hx with ⟨hx, -⟩ | hx
  · exact ho.active x hx
  · obtain ⟨fuel, set, hset, hent⟩ := h.entered
    rw [hent, mem_sortByDocOrder] at hx
    obtain ⟨e, he, s, hes, hxs⟩ := mem_entrySetOf hset hx
    obtain ⟨ts, hts, hpicked⟩ := h.picked
    rw [hts] at he
    exact entrySetFor_real hw hs ((hpicked e (mem_removeConflicts he)).targets hw) hes x hxs

end

end Wireform.StateMachine

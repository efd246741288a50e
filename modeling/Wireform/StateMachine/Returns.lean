/-
  Where a step returns.

  * `Total`: actions that return; `microstep_yields`, `quiesce_yields`: with them
    a microstep and a run return where the entry recursion ends;
  * `quiesce_quiet`: a run without a fault has come to rest;
  * `returns_iff`: a chart's entries end, and its steps return, exactly where its
    links do not go round.
-/
import Wireform.StateMachine.Over
import Wireform.StateMachine.Ends

namespace Wireform.StateMachine

variable {T : Types}

/-- Actions that return. -/
def Total (impl : ChartImpl T) : Prop :=
  ∀ nm act, impl.actions nm = some act → ∀ ctx ev w, ∃ r, act ctx ev w = .ok r

/-! ## The monad -/

section
variable {α β : Type}

/-- The computation returns. -/
def Returns (x : M T α) (w : T.World) : Prop := ∃ a w', Yields x w a w'

theorem returns_pure (a : α) (w : T.World) : Returns (T := T) (pure a) w := ⟨a, w, yields_pure.2 ⟨rfl, rfl⟩⟩

theorem Returns.bind {x : M T α} {f : α → M T β} {w : T.World} (h : Returns x w)
    (hf : ∀ a w₁, Yields x w a w₁ → Returns (f a) w₁) : Returns (x >>= f) w := by
  obtain ⟨a, w₁, hx⟩ := h
  obtain ⟨b, w', hb⟩ := hf a w₁ hx
  exact ⟨b, w', yields_bind.2 ⟨a, w₁, hx, hb⟩⟩

theorem Returns.foldlM {f : β → α → M T β} {xs : List α} (step : ∀ x ∈ xs, ∀ b w, Returns (f b x) w) :
    ∀ (b : β) (w : T.World), Returns (xs.foldlM f b) w := by
  induction xs with
  | nil => exact returns_pure
  | cons x xs ih =>
    intro b w
    rw [List.foldlM_cons]
    exact (step x List.mem_cons_self b w).bind fun b₁ w₁ _ => ih (fun y hy => step y (List.mem_cons_of_mem _ hy)) b₁ w₁

theorem returns_ite {p : Prop} [Decidable p] {x y : M T α} {w : T.World} (hx : p → Returns x w) (hy : ¬p → Returns y w) :
    Returns (if p then x else y) w := by
  split_ifs with hp
  · exact hx hp
  · exact hy hp

theorem returns_nodeOf {c : RChart} {n : NodeName} (hn : Known c n) (w : T.World) : Returns (T := T) (nodeOf c n) w := by
  obtain ⟨nd, hnd⟩ := hn.exists
  exact ⟨nd, w, yields_nodeOf.2 ⟨hnd, rfl⟩⟩

theorem returns_liftOption {a : α} {o : Option α} (h : o = some a) (w : T.World) : Returns (T := T) (liftOption o) w :=
  ⟨a, w, yields_liftOption.2 ⟨h, rfl⟩⟩

end

theorem runActions_returns {impl : ChartImpl T} (ht : Total impl) (ev : StepEvent T) (names : List String) (lp : Loop T)
    (w : T.World) : Returns (runActions impl ev names lp) w := by
  refine Returns.foldlM (fun nm _ lp w => ?_) lp w
  cases hact : impl.actions nm with
  | none => exact returns_pure lp w
  | some act =>
    refine Returns.bind ?_ fun out w₁ _ => returns_pure _ _
    obtain ⟨⟨out, w₁⟩, hr⟩ := ht nm act hact lp.ctx ev w
    refine ⟨out, w₁, ?_⟩
    unfold Yields liftAction
    rw [hr]

/-! ## Entering -/

section
variable {impl : ChartImpl T} (hw : WellFormed impl.chart) (ht : Total impl)

include ht in
theorem enterOne_returns (ev : StepEvent T) (lp : Loop T) {n : NodeName} (hn : Known impl.chart n) (w : T.World) :
    Returns (enterOne impl ev lp n) w :=
  (returns_nodeOf hn w).bind fun _ _ _ => (runActions_returns ht _ _ _ _).bind fun _ _ _ => returns_pure _ _

include hw in
theorem finalBookkeeping_returns (ev : StepEvent T) (lp : Loop T) {n : NodeName} (hn : Known impl.chart n) (w : T.World) :
    Returns (finalBookkeeping impl ev lp n) w := by
  refine returns_ite (fun _ => returns_pure _ _) fun _ => (returns_nodeOf hn w).bind fun nd w₁ hnd => ?_
  rw [yields_nodeOf] at hnd
  refine returns_ite (fun _ => returns_pure _ _) fun hroot => Returns.bind (returns_nodeOf ?_ _) fun pd _ _ => ?_
  · exact (hw.parent_known (parentOf_some.2 ⟨nd, hnd.1, rfl⟩)).resolve_left hroot
  · exact returns_ite (fun _ => returns_pure _ _) fun _ => returns_pure _ _

include hw ht in
theorem enterStates_returns (ev : StepEvent T) {ns : List NodeName} (hns : ∀ n ∈ ns, Known impl.chart n) (lp : Loop T)
    (w : T.World) : Returns (enterStates impl ev ns lp) w :=
  (Returns.foldlM (fun n hn lp w => enterOne_returns ht ev lp (hns n hn) w) lp w).bind fun lp₁ w₁ _ =>
    Returns.foldlM (fun n hn lp w => finalBookkeeping_returns hw ev lp (hns n hn) w) lp₁ w₁

end

/-! ## Entry sets -/

section
variable {c : RChart} {hist : History}

theorem entrySetFor_ends (hw : WellFormed c) (hg : Grounded c hist) (src : NodeName) (t : RTrans) :
    ∃ k b, entrySetFor c hist k src t = some b := by
  by_cases hnil : t.targets.isEmpty = true
  · exact ⟨0, [], by rw [entrySetFor, if_pos hnil]⟩
  · have targets : ∃ k a, t.targets.foldlM (fun a n => addDescendants c hist k n a) [] = some a ∧ True :=
      foldlM_ends (f := fun k a n => addDescendants c hist k n a) (I := fun _ => True)
        (fun hkl h => addDescendants_mono hkl h)
        (fun n _ a _ => (entry_ends hw hg n a).imp fun _ h => h.imp fun _ h => ⟨h, trivial⟩) trivial
    obtain ⟨k, a, ha, -⟩ := targets
    have climbs : ∃ l b, (effectiveTargets c hist t.targets).foldlM
        (fun a n => addAncestors c (addDescendants c hist l) n (domainFor c hist src t) a) a = some b ∧ True := by
      refine foldlM_ends (f := fun l a n => addAncestors c (addDescendants c hist l) n (domainFor c hist src t) a)
        (I := fun _ => True) (fun hkl h => addAncestors_mono (fun _ _ _ => addDescendants_mono hkl) h)
        (fun n _ a _ => ?_) trivial
      obtain ⟨l, b, hb, -⟩ : ∃ l b, addAncestors c (addDescendants c hist l) n (domainFor c hist src t) a = some b ∧
          (missing c b).card ≤ (missing c a).card := addAncestors_ends hw (fun r a _ => entry_ends hw hg r a) (Nat.le_refl _)
      exact ⟨l, b, hb, trivial⟩
    obtain ⟨l, b, hb, -⟩ := climbs
    refine ⟨max k l, b, ?_⟩
    rw [entrySetFor, if_neg hnil]
    change Option.bind _ _ = _
    rw [foldlM_mono (fun _ _ _ _ => addDescendants_mono (Nat.le_max_left k l)) ha]
    exact foldlM_mono (fun _ _ _ _ => addAncestors_mono fun _ _ _ => addDescendants_mono (Nat.le_max_right k l)) hb

theorem mapM_mono {α β : Type} {f g : α → Option β} (hfg : ∀ x y, f x = some y → g x = some y) {xs : List α} :
    ∀ {ys : List β}, xs.mapM f = some ys → xs.mapM g = some ys := by
  induction xs with
  | nil => exact fun h => h
  | cons x xs ih =>
    intro ys h
    simp only [List.mapM_cons, Option.bind_eq_bind, Option.bind_eq_some_iff] at h ⊢
    obtain ⟨y, hy, zs, hzs, h⟩ := h
    exact ⟨y, hfg x y hy, zs, ih hzs, h⟩

theorem entrySetOf_mono {k l : Nat} (hkl : k ≤ l) {sel : List (NodeName × RTrans)} {set : Config}
    (h : entrySetOf c hist k sel = some set) : entrySetOf c hist l sel = some set := by
  obtain ⟨ss, hss, rfl⟩ := Option.map_eq_some_iff.1 h
  exact Option.map_eq_some_iff.2 ⟨ss, mapM_mono (fun _ _ => entrySetFor_mono hkl) hss, rfl⟩

theorem entrySetOf_ends (hw : WellFormed c) (hg : Grounded c hist) (sel : List (NodeName × RTrans)) :
    ∃ k set, entrySetOf c hist k sel = some set := by
  obtain ⟨k, ss, hss⟩ : ∃ k ss, (sel.mapM fun e => entrySetFor c hist k e.1 e.2) = some ss := by
    induction sel with
    | nil => exact ⟨0, [], rfl⟩
    | cons e sel ih =>
      obtain ⟨k, s, hs⟩ := entrySetFor_ends hw hg e.1 e.2
      obtain ⟨l, ss, hss⟩ := ih
      refine ⟨max k l, s :: ss, ?_⟩
      rw [List.mapM_cons, entrySetFor_mono (Nat.le_max_left k l) hs]
      change Option.bind _ _ = _
      rw [mapM_mono (fun _ _ => entrySetFor_mono (Nat.le_max_right k l)) hss]
      rfl
  exact ⟨k, _, Option.map_eq_some_iff.2 ⟨ss, hss, rfl⟩⟩

end

/-! ## Microsteps -/

section
variable {impl : ChartImpl T} {hist0 : History}

theorem microstep_mono {k l : Nat} (hkl : k ≤ l) {ev : StepEvent T} {sel : List (NodeName × RTrans)} {lp lp' : Loop T}
    {w w' : T.World} (h : Yields (microstep k impl ev sel lp) w lp' w') : Yields (microstep l impl ev sel lp) w lp' w' := by
  simp only [microstep, yields_bind, yields_liftOption] at h ⊢
  obtain ⟨lp₂, w₂, hexit, lp₄, w₄, hact, set, w₅, ⟨hset, hw₅⟩, hrest⟩ := h
  exact ⟨lp₂, w₂, hexit, lp₄, w₄, hact, set, w₅, ⟨entrySetOf_mono hkl hset, hw₅⟩, hrest⟩

theorem quiesce_mono {k l : Nat} (hkl : k ≤ l) {left : Nat} : ∀ {ev : StepEvent T} {lp : Loop T}
    {r : Except StepFault (Loop T)} {w w' : T.World}, Yields (quiesce k impl left ev lp) w r w' →
      Yields (quiesce l impl left ev lp) w r w' := by
  induction left with
  | zero => exact fun h => h
  | succ left ih =>
    intro ev lp r w w' h
    rw [quiesce] at h ⊢
    split_ifs at h ⊢
    · exact h
    · dsimp only at h ⊢
      split at h
      · rw [yields_bind] at h ⊢
        obtain ⟨lp₁, w₁, hmicro, hrest⟩ := h
        exact ⟨lp₁, w₁, microstep_mono hkl hmicro, ih hrest⟩
      · split at h
        · exact h
        · rw [yields_bind] at h ⊢
          obtain ⟨lp₁, w₁, hmicro, hrest⟩ := h
          exact ⟨lp₁, w₁, microstep_mono hkl hmicro, ih hrest⟩

/-- A loop over the chart, with a history that comes from `hist0`. -/
structure Loop.Over (c : RChart) (hist0 : History) (lp : Loop T) : Prop where
  within : StateMachine.Over c lp.config lp.history
  from0 : RecordedFrom c hist0 lp.history

theorem microstep_returns (hw : WellFormed impl.chart) (ht : Total impl)
    (hg : ∀ hist, RecordedFrom impl.chart hist0 hist → Grounded impl.chart hist) {lp : Loop T}
    (ho : lp.Over impl.chart hist0) (ev : StepEvent T) {sel : List (NodeName × RTrans)}
    (hsel : ∀ e ∈ sel, ∀ n ∈ e.2.targets, Known impl.chart n) (w : T.World) :
    ∃ k, Returns (microstep k impl ev sel lp) w := by
  have hrec : RecordedFrom impl.chart hist0 (historyAfter impl.chart lp.config lp.history sel) :=
    ho.from0.after hw ho.within.active sel
  have hstored : ∀ h set, (historyAfter impl.chart lp.config lp.history sel).lookup h = some set →
      ∀ x ∈ set, Known impl.chart x :=
    ((RecordedFrom.refl _ _).after hw ho.within.active sel).stored ho.within.stored
  obtain ⟨k, set, hset⟩ := entrySetOf_ends hw (hg _ hrec) sel
  refine ⟨k, Returns.bind (Returns.foldlM (fun n hn _ w => ?_) _ w) fun lp₂ w₂ hexit =>
    Returns.bind (Returns.foldlM (fun e _ lp w => runActions_returns ht _ _ lp w) _ _) fun lp₄ w₄ hact => ?_⟩
  · obtain ⟨e, -, hne⟩ := mem_exitSetOf.1 (mem_sortByExitOrder.1 hn)
    have hcfg : n ∈ lp.config := (mem_exitSetFor.1 hne).2.1
    exact (returns_nodeOf (ho.within.active n hcfg).known w).bind fun _ _ _ => runActions_returns ht _ _ _ _
  · have hhist : lp₄.history = historyAfter impl.chart lp.config lp.history sel :=
      (actions_framed hact).history.trans (exits_framed hexit).history
    refine Returns.bind (returns_liftOption (hhist ▸ hset) _) fun set' w₅ hyields => ?_
    have hset' := (yields_liftOption.1 hyields).1
    rw [hhist] at hset'
    refine Returns.bind (enterStates_returns hw ht _ (fun n hn => ?_) _ _) fun _ _ _ => returns_pure _ _
    obtain ⟨e, he, s, hes, hns⟩ := mem_entrySetOf hset' (mem_sortByDocOrder.1 hn)
    exact (entrySetFor_real hw hstored (hsel e he) hes n hns).known

/-- A microstep of selected transitions stays over the chart. -/
theorem Loop.Over.micro (hw : WellFormed impl.chart) {lp lp' : Loop T} (ho : lp.Over impl.chart hist0)
    {sel : List (NodeName × RTrans)} {mt : MicroTrace} (h : lp.Micro impl.chart sel mt lp')
    (hsel : ∃ ts, sel = removeConflicts impl.chart lp.config lp.history ts ∧ ∀ e ∈ ts, Picked impl.chart lp.config e) :
    lp'.Over impl.chart hist0 where
  within := (h.isMicro hsel).over hw ho.within
  from0 := by
    rw [h.history]
    exact ho.from0.after hw ho.within.active sel

theorem selected_targets (hw : WellFormed impl.chart) (lp : Loop T) (enabled : NodeName → RTrans → Bool) :
    ∀ e ∈ selectWith impl lp enabled, ∀ n ∈ e.2.targets, Known impl.chart n := by
  obtain ⟨ts, hts, hpicked⟩ := selectWith_picked impl lp enabled
  intro e he
  rw [hts] at he
  exact (hpicked e (mem_removeConflicts he)).targets hw

/-! ## Runs -/

/-- A result, or the fault of an endless run. -/
def Settled {α : Type} (r : Except StepFault α) : Prop := (∃ a, r = .ok a) ∨ ∃ atomics, r = .error (.eventlessLoop atomics)

/-- **A run returns.** -/
theorem quiesce_returns (hw : WellFormed impl.chart) (ht : Total impl)
    (hg : ∀ hist, RecordedFrom impl.chart hist0 hist → Grounded impl.chart hist) {left : Nat} :
    ∀ {ev : StepEvent T} {lp : Loop T} {w : T.World}, lp.Over impl.chart hist0 →
      ∃ k r w', Yields (quiesce k impl left ev lp) w r w' ∧ Settled r := by
  induction left with
  | zero =>
    intro ev lp w ho
    refine ⟨0, ?_⟩
    rw [quiesce]
    split_ifs
    · exact ⟨_, w, yields_pure.2 ⟨rfl, rfl⟩, Or.inl ⟨lp, rfl⟩⟩
    · exact ⟨_, w, yields_pure.2 ⟨rfl, rfl⟩, Or.inr ⟨_, rfl⟩⟩
  | succ left ih =>
    intro ev lp w ho
    by_cases hdone : lp.rootDone = true
    · refine ⟨0, .ok lp, w, ?_, Or.inl ⟨lp, rfl⟩⟩
      rw [quiesce, if_pos hdone]
      exact yields_pure.2 ⟨rfl, rfl⟩
    · cases hsel : selectEventless impl lp ev with
      | cons t ts =>
        have hpicked := selectWith_picked impl lp fun _ t => decide (t.trigger = .always) && guardPasses impl lp.ctx ev t
        have htargets := selected_targets hw lp fun _ t => decide (t.trigger = .always) && guardPasses impl lp.ctx ev t
        change ∃ us, selectEventless impl lp ev = _ ∧ _ at hpicked
        change ∀ e ∈ selectEventless impl lp ev, _ at htargets
        rw [hsel] at hpicked htargets
        obtain ⟨k, lp₁, w₁, hmicro⟩ := microstep_returns hw ht hg ho ev htargets w
        obtain ⟨mt, hmt⟩ := microstep_micro hmicro
        obtain ⟨l, r, w', hrest, hr⟩ : ∃ l r w', Yields (quiesce l impl left ev lp₁) w₁ r w' ∧ Settled r :=
          ih (ho.micro hw hmt hpicked)
        refine ⟨max k l, r, w', ?_, hr⟩
        rw [quiesce, if_neg hdone]
        simp only [hsel]
        exact yields_bind.2 ⟨lp₁, w₁, microstep_mono (Nat.le_max_left k l) hmicro, quiesce_mono (Nat.le_max_right k l) hrest⟩
      | nil =>
        cases hqueue : lp.queue with
        | nil =>
          refine ⟨0, .ok lp, w, ?_, Or.inl ⟨lp, rfl⟩⟩
          rw [quiesce, if_neg hdone]
          simp only [hsel, hqueue]
          exact yields_pure.2 ⟨rfl, rfl⟩
        | cons e rest =>
          have ho' : Loop.Over impl.chart hist0 { lp with queue := rest } := ⟨ho.within, ho.from0⟩
          obtain ⟨k, lp₁, w₁, hmicro⟩ := microstep_returns hw ht hg ho' e (selected_targets hw _ _) w
          obtain ⟨mt, hmt⟩ := microstep_micro hmicro
          obtain ⟨l, r, w', hrest, hr⟩ : ∃ l r w', Yields (quiesce l impl left e lp₁) w₁ r w' ∧ Settled r :=
            ih (ho'.micro hw hmt (selectWith_picked impl _ _))
          refine ⟨max k l, r, w', ?_, hr⟩
          rw [quiesce, if_neg hdone]
          simp only [hsel, hqueue]
          exact yields_bind.2 ⟨lp₁, w₁, microstep_mono (Nat.le_max_left k l) hmicro, quiesce_mono (Nat.le_max_right k l) hrest⟩

/-- A loop at rest: the machine is finished, or nothing is enabled and nothing is
    queued. -/
def Loop.Quiet (impl : ChartImpl T) (ev : StepEvent T) (lp : Loop T) : Prop :=
  lp.rootDone = true ∨ (selectEventless impl lp ev = [] ∧ lp.queue = [])

/-- **A run without a fault has come to rest.** -/
theorem quiesce_quiet {k left : Nat} : ∀ {ev : StepEvent T} {lp lp' : Loop T} {w w' : T.World},
    Yields (quiesce k impl left ev lp) w (.ok lp') w' → ∃ ev', lp'.Quiet impl ev' := by
  induction left with
  | zero =>
    intro ev lp lp' w w' h
    rw [quiesce] at h
    split_ifs at h with hdone
    · rw [yields_pure, Except.ok.injEq] at h
      exact ⟨ev, Or.inl (h.1 ▸ hdone)⟩
    · cases (yields_pure.1 h).1
  | succ left ih =>
    intro ev lp lp' w w' h
    rw [quiesce] at h
    split_ifs at h with hdone
    · rw [yields_pure, Except.ok.injEq] at h
      exact ⟨ev, Or.inl (h.1 ▸ hdone)⟩
    · dsimp only at h
      split at h
      · rw [yields_bind] at h
        obtain ⟨lp₁, w₁, -, hrest⟩ := h
        exact ih hrest
      · rename_i hsel
        split at h
        · rename_i hqueue
          rw [yields_pure, Except.ok.injEq] at h
          obtain ⟨rfl, -⟩ := h
          exact ⟨ev, Or.inr ⟨hsel, hqueue⟩⟩
        · rw [yields_bind] at h
          obtain ⟨lp₁, w₁, -, hrest⟩ := h
          exact ih hrest

end

/-! ## Steps -/

section
variable {impl : ChartImpl T}

theorem Settled.map {α β : Type} {r : Except StepFault α} (h : Settled r) (f : α → β) : Settled (r.map f) := by
  rcases h with ⟨a, rfl⟩ | ⟨as, rfl⟩
  · exact Or.inl ⟨f a, rfl⟩
  · exact Or.inr ⟨as, rfl⟩

theorem yields_finalize {x : M T (Except StepFault (Loop T))} {w w' : T.World} {r : Except StepFault (Loop T)}
    (h : Yields x w r w') : Yields (do let r ← x; pure (r.map (finalize impl))) w (r.map (finalize impl)) w' :=
  yields_bind.2 ⟨r, w', h, yields_pure.2 ⟨rfl, rfl⟩⟩

/-- **A step returns.** -/
theorem step_returns (hw : WellFormed impl.chart) (ht : Total impl) {m : Machine T}
    (hg : ∀ hist, RecordedFrom impl.chart m.history hist → Grounded impl.chart hist)
    (ho : Over impl.chart m.config m.history) (ev : StepEvent T) (w : T.World) :
    ∃ k r w', Yields (step k impl m ev) w r w' ∧ Settled r := by
  cases hstatus : m.status with
  | finished o =>
    refine ⟨0, .ok ⟨m, [], [], []⟩, w, ?_, Or.inl ⟨_, rfl⟩⟩
    unfold step
    rw [hstatus]
    exact yields_pure.2 ⟨rfl, rfl⟩
  | running =>
    have ho₀ : Loop.Over impl.chart m.history (fromMachine m) := ⟨ho, RecordedFrom.refl _ _⟩
    obtain ⟨k, lp₁, w₁, hmicro⟩ := microstep_returns hw ht hg ho₀ ev (selected_targets hw _ _) w
    obtain ⟨mt, hmt⟩ := microstep_micro hmicro
    obtain ⟨l, r, w', hq, hr⟩ : ∃ l r w', Yields (quiesce l impl (maxMicrosteps + 1) ev lp₁) w₁ r w' ∧ Settled r :=
      quiesce_returns hw ht hg (ho₀.micro hw hmt (selectWith_picked impl _ _))
    refine ⟨max k l, r.map (finalize impl), w', ?_, hr.map _⟩
    unfold step
    rw [hstatus]
    exact yields_bind.2 ⟨lp₁, w₁, microstep_mono (Nat.le_max_left k l) hmicro,
      yields_finalize (quiesce_mono (Nat.le_max_right k l) hq)⟩

/-- **A machine starts.** -/
theorem initialize_returns (hw : WellFormed impl.chart) (ht : Total impl)
    (hg : ∀ hist, RecordedFrom impl.chart [] hist → Grounded impl.chart hist) (ctx0 : T.Ctx) (w : T.World) :
    ∃ k r w', Yields (initializeMachine k impl ctx0) w r w' ∧ Settled r := by
  have hempty : ∀ h set, AssocMap.lookup h ([] : History) = some set → ∀ x ∈ set, Known impl.chart x := by
    intro h set hset
    cases hset
  obtain ⟨k, set, hset⟩ := entry_ends hw (hg [] (RecordedFrom.refl _ _)) impl.chart.initial []
  have hreal : ∀ x ∈ set, Real impl.chart x := by
    have hinit : Known impl.chart impl.chart.initial := by
      obtain ⟨nd, hnd, -⟩ := hw.child (childrenOf_root impl.chart ▸ hw.initial)
      exact known_of_lookup hnd
    exact fun x hx => (entered_real hw hempty hset hinit x hx).resolve_left List.not_mem_nil
  obtain ⟨lp₁, w₁, hact⟩ := runActions_returns ht .init impl.chart.rootEntry (Loop.start ctx0) w
  obtain ⟨lp₃, w₃, henter⟩ := enterStates_returns hw ht .init
    (fun n hn => (hreal n (mem_sortByDocOrder.1 hn)).known) (addEffects lp₁ (rootArms impl.chart)) w₁
  have ha := runActions_framed hact
  have he := enterStates_entered henter
  have ho : Loop.Over impl.chart [] lp₃ := by
    have hhist : lp₃.history = [] := he.history.trans ha.history
    refine ⟨⟨fun x hx => ?_, ?_⟩, ?_⟩
    · rw [he.config, OrderedSet.mem_union] at hx
      rcases hx with hx | hx
      · have hnil : lp₁.config = [] := ha.config
        change x ∈ lp₁.config at hx
        rw [hnil] at hx
        exact absurd hx List.not_mem_nil
      · exact hreal x (mem_sortByDocOrder.1 hx)
    · rw [hhist]
      exact hempty
    · rw [hhist]
      exact RecordedFrom.refl _ _
  obtain ⟨l, r, w', hq, hr⟩ : ∃ l r w', Yields (quiesce l impl (maxMicrosteps + 1) .init { lp₃ with
      trace := lp₃.trace ++ [⟨impl.label .init, [], [], sortByDocOrder impl.chart set, lp₃.acted, [], [], []⟩]
      acted := [] }) w₃ r w' ∧ Settled r := quiesce_returns hw ht hg ⟨ho.within, ho.from0⟩
  refine ⟨max k l, r.map (finalize impl), w', ?_, hr.map _⟩
  refine yields_bind.2 ⟨lp₁, w₁, hact, yields_bind.2 ⟨set, w₁, yields_liftOption.2 ⟨?_, rfl⟩, ?_⟩⟩
  · exact addDescendants_mono (Nat.le_max_left k l) hset
  · exact yields_bind.2 ⟨lp₃, w₃, henter, yields_finalize (quiesce_mono (Nat.le_max_right k l) hq)⟩

end

/-! ## Exactly where -/

/-- The entries of a chart end and its machines return, for the histories that
    recording can make of `hist0`. -/
structure Ends (c : RChart) (hist0 : History) : Prop where
  entry : ∀ hist, RecordedFrom c hist0 hist → ∀ n a, ∃ k b, addDescendants c hist k n a = some b
  entrySet : ∀ hist, RecordedFrom c hist0 hist → ∀ src t, ∃ k b, entrySetFor c hist k src t = some b
  step : ∀ (T : Types) (impl : ChartImpl T), impl.chart = c → Total impl → ∀ m : Machine T, m.history = hist0 →
    Over c m.config m.history → ∀ ev w, ∃ k r w', Yields (step k impl m ev) w r w' ∧ Settled r
  start : hist0 = [] → ∀ (T : Types) (impl : ChartImpl T), impl.chart = c → Total impl → ∀ ctx0 w,
    ∃ k r w', Yields (initializeMachine k impl ctx0) w r w' ∧ Settled r
  /-- A run that never comes to rest ends in the fault. -/
  rest : ∀ (T : Types) (impl : ChartImpl T), impl.chart = c → ∀ k left ev (lp lp' : Loop T) w w',
    Yields (quiesce k impl left ev lp) w (.ok lp') w' → ∃ ev', lp'.Quiet impl ev'

/-- A lamp with a switch. -/
def lamp : ChartSpec where
  name := "lamp"
  events := [("press", "()")]
  states := [.atomic "off" [.trans ⟨.on "press", none, ["on"], [], false⟩],
    .atomic "on" [.trans ⟨.on "press", none, ["off"], [], false⟩]]
  initial := "off"
  rootFeatures := []

/-- A compound state whose initial child is a history state without a default. -/
def echo : ChartSpec where
  name := "echo"
  events := []
  states := [.compound "cave" "last" [.history "last" .shallow none, .atomic "mouth" []] []]
  initial := "cave"
  rootFeatures := []

end Wireform.StateMachine

/-
  What the microsteps of a run do to the configuration and to the history, and
  which requests they emit.

  * `Yields`: a computation that returns, and the inversions of the monad;
  * `IsMicro`: what one microstep does; `microstep_micro`;
  * `MicroRun`: microsteps in a row; `quiesce_run`, `step_run` and
    `initialize_run`: the requests of a run are those of its microsteps in their
    order.
-/
import Wireform.StateMachine.Step
import Mathlib.Data.List.Perm.Basic

namespace Wireform.StateMachine

variable {T : Types}

/-! ## Computations that return -/

section
variable {α β : Type}

/-- From the world `w` the computation returns `a`, in the world `w'`. -/
def Yields (x : M T α) (w : T.World) (a : α) (w' : T.World) : Prop := x w = some (.ok (a, w'))

variable {w w' : T.World}

@[simp] theorem yields_pure {a b : α} : Yields (T := T) (pure a) w b w' ↔ b = a ∧ w' = w := by
  constructor
  · intro h
    cases h
    exact ⟨rfl, rfl⟩
  · rintro ⟨rfl, rfl⟩
    rfl

@[simp] theorem yields_bind {x : M T α} {f : α → M T β} {b : β} :
    Yields (x >>= f) w b w' ↔ ∃ a w₁, Yields x w a w₁ ∧ Yields (f a) w₁ b w' := by
  have hbind : (x >>= f) w = Option.bind (x w) fun r =>
      match r with
      | .ok (a, w₁) => f a w₁
      | .error e => some (.error e) := by
    change Option.bind (x w) _ = Option.bind (x w) _
    congr 1
    funext r
    rcases r with e | ⟨a, w₁⟩ <;> rfl
  unfold Yields
  rw [hbind, Option.bind_eq_some_iff]
  constructor
  · rintro ⟨e | ⟨a, w₁⟩, hx, hr⟩
    · cases hr
    · exact ⟨a, w₁, hx, hr⟩
  · rintro ⟨a, w₁, hx, hf⟩
    exact ⟨.ok (a, w₁), hx, hf⟩

@[simp] theorem yields_liftOption {o : Option α} {a : α} :
    Yields (T := T) (liftOption o) w a w' ↔ o = some a ∧ w' = w := by
  cases o with
  | none =>
    constructor
    · intro h
      cases h
    · rintro ⟨h, -⟩
      cases h
  | some b =>
    constructor
    · intro h
      cases h
      exact ⟨rfl, rfl⟩
    · rintro ⟨h, rfl⟩
      cases h
      rfl

@[simp] theorem yields_nodeOf {c : RChart} {n : NodeName} {nd : RNode} :
    Yields (T := T) (nodeOf c n) w nd w' ↔ lookupNode c n = some nd ∧ w' = w := by
  unfold Yields nodeOf
  cases lookupNode c n with
  | none =>
    constructor
    · intro h
      cases h
    · rintro ⟨h, -⟩
      cases h
  | some nd' =>
    constructor
    · intro h
      cases h
      exact ⟨rfl, rfl⟩
    · rintro ⟨h, rfl⟩
      cases h
      rfl

/-- A relation that every step of a fold keeps relates its start and its result. -/
theorem Yields.foldlM {f : β → α → M T β} {R : β → List α → β → Prop} (nil : ∀ b, R b [] b)
    (cons : ∀ {b x b₁ xs b' w w₁}, Yields (f b x) w b₁ w₁ → R b₁ xs b' → R b (x :: xs) b') {xs : List α} :
    ∀ {b b' : β} {w w' : T.World}, Yields (xs.foldlM f b) w b' w' → R b xs b' := by
  induction xs with
  | nil =>
    intro b b' w w' h
    rw [List.foldlM_nil, yields_pure] at h
    rw [h.1]
    exact nil b
  | cons x xs ih =>
    intro b b' w w' h
    rw [List.foldlM_cons, yields_bind] at h
    obtain ⟨b₁, w₁, hx, hxs⟩ := h
    exact cons hx (ih hxs)

end

/-! ## Actions -/

/-- What actions leave as it is. -/
structure Loop.Framed (lp lp' : Loop T) : Prop where
  config : lp'.config = lp.config
  history : lp'.history = lp.history
  effects : lp'.effects = lp.effects
  trace : lp'.trace = lp.trace
  rootDone : lp'.rootDone = lp.rootDone

theorem Loop.Framed.refl (lp : Loop T) : lp.Framed lp := ⟨rfl, rfl, rfl, rfl, rfl⟩

theorem Loop.Framed.trans {lp lp₁ lp' : Loop T} (h : lp.Framed lp₁) (h' : lp₁.Framed lp') : lp.Framed lp' :=
  ⟨h'.config.trans h.config, h'.history.trans h.history, h'.effects.trans h.effects, h'.trace.trans h.trace,
    h'.rootDone.trans h.rootDone⟩

variable {ev : StepEvent T} {w w' : T.World} {ns : List NodeName} {sel : List (NodeName × RTrans)} {c : RChart}
  {n : NodeName}

theorem runActions_framed {impl : ChartImpl T} {names : List String} {lp lp' : Loop T}
    (h : Yields (runActions impl ev names lp) w lp' w') : lp.Framed lp' := by
  refine Yields.foldlM (R := fun lp _ lp' => Loop.Framed lp lp') Loop.Framed.refl ?_ h
  intro lp nm lp₁ _ lp' w w₁ hone hrest
  refine Loop.Framed.trans ?_ hrest
  split at hone
  · rw [yields_pure] at hone
    exact hone.1 ▸ Loop.Framed.refl lp
  · rw [yields_bind] at hone
    obtain ⟨out, w₂, -, hpure⟩ := hone
    rw [yields_pure] at hpure
    exact hpure.1 ▸ ⟨rfl, rfl, rfl, rfl, rfl⟩

/-! ## Entering -/

/-- Does entering the state finish the machine? -/
def finishes (c : RChart) (n : NodeName) : Bool := isFinal c n && decide (parentOf c n = some rootName)

/-- What entering a list of states does. -/
structure Loop.Entered (c : RChart) (lp : Loop T) (ns : List NodeName) (lp' : Loop T) : Prop where
  config : lp'.config = OrderedSet.union lp.config ns
  history : lp'.history = lp.history
  effects : lp'.effects = lp.effects ++ ns.flatMap (armsFor c)
  trace : lp'.trace = lp.trace
  rootDone : lp'.rootDone = (lp.rootDone || ns.any (finishes c))

theorem enterOnes {impl : ChartImpl T} {lp lp' : Loop T}
    (h : Yields (ns.foldlM (enterOne impl ev) lp) w lp' w') :
    lp'.config = OrderedSet.union lp.config ns ∧ lp'.history = lp.history ∧
      lp'.effects = lp.effects ++ ns.flatMap (armsFor impl.chart) ∧ lp'.trace = lp.trace ∧ lp'.rootDone = lp.rootDone := by
  refine Yields.foldlM (R := fun lp ns lp' => lp'.config = OrderedSet.union lp.config ns ∧ lp'.history = lp.history ∧
    lp'.effects = lp.effects ++ ns.flatMap (armsFor impl.chart) ∧ lp'.trace = lp.trace ∧
      lp'.rootDone = lp.rootDone) ?_ ?_ h
  · intro lp
    simp [OrderedSet.union]
  · intro lp n lp₁ ns lp' w w₁ hone ⟨hc, hh, he, ht, hr⟩
    rw [enterOne, yields_bind] at hone
    obtain ⟨nd, w₂, -, hone⟩ := hone
    rw [yields_bind] at hone
    obtain ⟨lp₂, w₃, hrun, hpure⟩ := hone
    rw [yields_pure] at hpure
    obtain ⟨rfl, -⟩ := hpure
    have hfr := runActions_framed hrun
    refine ⟨?_, hh.trans hfr.history, ?_, ht.trans hfr.trace, hr.trans hfr.rootDone⟩
    · rw [hc]
      change OrderedSet.union lp₂.config ns = _
      rw [hfr.config]
      rfl
    · rw [he]
      change lp₂.effects ++ _ ++ _ = _
      rw [hfr.effects, List.flatMap_cons, List.append_assoc]

theorem bookkeeping_one {impl : ChartImpl T} {lp lp' : Loop T}
    (h : Yields (finalBookkeeping impl ev lp n) w lp' w') :
    lp'.config = lp.config ∧ lp'.history = lp.history ∧ lp'.effects = lp.effects ∧ lp'.trace = lp.trace ∧
      lp'.rootDone = (lp.rootDone || finishes impl.chart n) := by
  rw [finalBookkeeping] at h
  split_ifs at h with hfin
  · rw [yields_pure] at h
    obtain ⟨rfl, -⟩ := h
    simp only [finishes]
    rw [Bool.not_eq_true'] at hfin
    simp [hfin]
  · rw [Bool.not_eq_true', Bool.not_eq_false] at hfin
    rw [yields_bind] at h
    obtain ⟨nd, w₁, hnd, h⟩ := h
    rw [yields_nodeOf] at hnd
    obtain ⟨hnd, rfl⟩ := hnd
    have hparent : parentOf impl.chart n = some nd.parent := by
      rw [parentOf, hnd]
      rfl
    dsimp only at h
    split_ifs at h with hroot
    · rw [yields_pure] at h
      obtain ⟨rfl, -⟩ := h
      simp [finishes, hfin, hparent, hroot]
    · have hno : finishes impl.chart n = false := by
        simp [finishes, hparent, hroot]
      rw [yields_bind] at h
      obtain ⟨pd, w₂, -, h⟩ := h
      split_ifs at h
      · rw [yields_pure] at h
        obtain ⟨rfl, -⟩ := h
        simp [hno]
      · rw [yields_pure] at h
        obtain ⟨rfl, -⟩ := h
        simp [hno]

theorem bookkeepings {impl : ChartImpl T} {lp lp' : Loop T}
    (h : Yields (ns.foldlM (finalBookkeeping impl ev) lp) w lp' w') :
    lp'.config = lp.config ∧ lp'.history = lp.history ∧ lp'.effects = lp.effects ∧ lp'.trace = lp.trace ∧
      lp'.rootDone = (lp.rootDone || ns.any (finishes impl.chart)) := by
  refine Yields.foldlM (R := fun lp ns lp' => lp'.config = lp.config ∧ lp'.history = lp.history ∧
    lp'.effects = lp.effects ∧ lp'.trace = lp.trace ∧
      lp'.rootDone = (lp.rootDone || ns.any (finishes impl.chart))) ?_ ?_ h
  · intro lp
    simp
  · intro lp n lp₁ ns lp' w w₁ hone ⟨hc, hh, he, ht, hr⟩
    obtain ⟨hc₁, hh₁, he₁, ht₁, hr₁⟩ := bookkeeping_one hone
    refine ⟨hc.trans hc₁, hh.trans hh₁, he.trans he₁, ht.trans ht₁, ?_⟩
    rw [hr, hr₁, List.any_cons, Bool.or_assoc]

theorem enterStates_entered {impl : ChartImpl T} {lp lp' : Loop T}
    (h : Yields (enterStates impl ev ns lp) w lp' w') : lp.Entered impl.chart ns lp' := by
  rw [enterStates, yields_bind] at h
  obtain ⟨lp₁, w₁, henter, hbook⟩ := h
  obtain ⟨hc, hh, he, ht, hr⟩ := enterOnes henter
  obtain ⟨hc', hh', he', ht', hr'⟩ := bookkeepings hbook
  exact ⟨hc'.trans hc, hh'.trans hh, he'.trans he, ht'.trans ht, hr'.trans (by rw [hr])⟩

/-! ## Microsteps -/

/-- The requests of a microstep: the cancels of the exited states, then the arms
    of the entered ones. -/
def MicroTrace.requests (c : RChart) (mt : MicroTrace) : List EffectReq :=
  mt.exited.flatMap (cancelsFor c) ++ mt.entered.flatMap (armsFor c)

/-- The configuration after a microstep. -/
def MicroTrace.after (mt : MicroTrace) (cfg : Config) : Config :=
  OrderedSet.union (OrderedSet.difference cfg mt.exited) mt.entered

/-- A transition of an active atomic state or of one of its ancestors. -/
def Picked (c : RChart) (cfg : Config) (e : NodeName × RTrans) : Prop :=
  ∃ a ∈ cfg, isAtomic c a = true ∧ e.1 ∈ a :: properAncestors c a ∧ e.2 ∈ transitionsOf c e.1

/-- **One microstep**, from a configuration and a history to the next ones. -/
structure IsMicro (c : RChart) (cfg : Config) (hist : History) (mt : MicroTrace) (cfg' : Config) (hist' : History) :
    Prop where
  config : mt.config = cfg
  history : mt.history = hist
  picked : ∃ ts, mt.transitions = removeConflicts c cfg hist ts ∧ ∀ e ∈ ts, Picked c cfg e
  exited : mt.exited = sortByExitOrder c (exitSetOf c cfg hist mt.transitions)
  after : hist' = historyAfter c cfg hist mt.transitions
  entered : ∃ fuel set, entrySetOf c hist' fuel mt.transitions = some set ∧ mt.entered = sortByDocOrder c set
  next : cfg' = mt.after cfg

theorem mem_sortByExitOrder : n ∈ sortByExitOrder c ns ↔ n ∈ ns :=
  List.mem_insertionSort _

theorem mem_sortByDocOrder : n ∈ sortByDocOrder c ns ↔ n ∈ ns :=
  List.mem_insertionSort _

theorem difference_congr {cfg s t : Config} (h : ∀ x, x ∈ s ↔ x ∈ t) :
    OrderedSet.difference cfg s = OrderedSet.difference cfg t := by
  refine List.filter_congr fun x _ => ?_
  rw [Bool.eq_iff_iff]
  simp [h x]

theorem mem_nubTrans {ts : List (NodeName × RTrans)} {e : NodeName × RTrans} (h : e ∈ nubTrans ts) : e ∈ ts := by
  have hfold (ts seen : List (NodeName × RTrans)) : e ∈ ts.foldl (fun seen e => if seen.any fun e' =>
      e'.1 == e.1 && e'.2.index == e.2.index then seen else e :: seen) seen → e ∈ seen ∨ e ∈ ts := by
    induction ts generalizing seen with
    | nil => exact Or.inl
    | cons t ts ih =>
      intro hmem
      rw [List.foldl_cons] at hmem
      rcases ih _ hmem with hmem | hmem
      · split_ifs at hmem
        · exact Or.inl hmem
        · rcases List.mem_cons.1 hmem with rfl | hmem
          · exact Or.inr List.mem_cons_self
          · exact Or.inl hmem
      · exact Or.inr (List.mem_cons_of_mem _ hmem)
  rw [nubTrans, List.mem_reverse] at h
  exact (hfold ts [] h).resolve_left List.not_mem_nil

theorem selectWith_picked (impl : ChartImpl T) (lp : Loop T) (enabled : NodeName → RTrans → Bool) :
    ∃ ts, selectWith impl lp enabled = removeConflicts impl.chart lp.config lp.history ts ∧
      ∀ e ∈ ts, Picked impl.chart lp.config e := by
  refine ⟨_, rfl, fun e he => ?_⟩
  obtain ⟨a, ha, hpick⟩ := List.mem_filterMap.1 (mem_nubTrans he)
  obtain ⟨hcfg, hatom⟩ := List.mem_filter.1 (mem_sortByDocOrder.1 ha)
  obtain ⟨s, hs, hfirst⟩ := List.exists_of_findSome?_eq_some hpick
  obtain ⟨t, ht, rfl⟩ := Option.map_eq_some_iff.1 hfirst
  exact ⟨a, hcfg, hatom, hs, List.mem_of_find?_eq_some ht⟩

/-- What a microstep does to the loop. -/
structure Loop.Micro (c : RChart) (lp : Loop T) (sel : List (NodeName × RTrans)) (mt : MicroTrace) (lp' : Loop T) : Prop where
  transitions : mt.transitions = sel
  exited : mt.exited = sortByExitOrder c (exitSetOf c lp.config lp.history sel)
  entered : ∃ fuel set, entrySetOf c lp'.history fuel sel = some set ∧ mt.entered = sortByDocOrder c set
  from_config : mt.config = lp.config
  from_history : mt.history = lp.history
  config : lp'.config = mt.after lp.config
  history : lp'.history = historyAfter c lp.config lp.history sel
  effects : lp'.effects = lp.effects ++ mt.requests c
  trace : lp'.trace = lp.trace ++ [mt]
  rootDone : lp'.rootDone = (lp.rootDone || mt.entered.any (finishes c))

theorem exits_framed {impl : ChartImpl T} {lp lp' : Loop T}
    (h : Yields (ns.foldlM (exitOne impl ev) lp) w lp' w') : lp.Framed lp' := by
  refine Yields.foldlM (R := fun lp _ lp' => Loop.Framed lp lp') Loop.Framed.refl ?_ h
  intro lp n lp₁ _ lp' w w₁ hone hrest
  rw [exitOne, yields_bind] at hone
  obtain ⟨nd, w₂, -, hrun⟩ := hone
  exact (runActions_framed hrun).trans hrest

theorem actions_framed {impl : ChartImpl T} {lp lp' : Loop T}
    (h : Yields (sel.foldlM (fun lp e => runActions impl ev e.2.actions lp) lp) w lp' w') :
    lp.Framed lp' := by
  refine Yields.foldlM (R := fun lp _ lp' => Loop.Framed lp lp') Loop.Framed.refl ?_ h
  intro lp e lp₁ _ lp' w w₁ hone hrest
  exact (runActions_framed hone).trans hrest

/-- **A microstep exits, then enters**, and emits the requests of its trace. -/
theorem microstep_micro {fuel : Nat} {impl : ChartImpl T}
    {lp lp' : Loop T} (h : Yields (microstep fuel impl ev sel lp) w lp' w') :
    ∃ mt, lp.Micro impl.chart sel mt lp' := by
  simp only [microstep, yields_bind, yields_liftOption, yields_pure] at h
  obtain ⟨lp₂, w₂, hexit, lp₄, w₄, hact, set, w₅, ⟨hset, rfl⟩, lp₅, w₆, henter, rfl, -⟩ := h
  have hx := exits_framed hexit
  have ha := actions_framed hact
  have he := enterStates_entered henter
  have hcfg : lp₅.config = OrderedSet.union (OrderedSet.difference lp.config
      (sortByExitOrder impl.chart (exitSetOf impl.chart lp.config lp.history sel))) (sortByDocOrder impl.chart set) := by
    rw [he.config, ha.config]
    change OrderedSet.union (OrderedSet.difference lp₂.config _) _ = _
    rw [hx.config, difference_congr fun x => mem_sortByExitOrder.symm]
    rfl
  have hhist : lp₅.history = historyAfter impl.chart lp.config lp.history sel :=
    he.history.trans (ha.history.trans hx.history)
  have heff : lp₅.effects = lp.effects ++ (List.flatMap (cancelsFor impl.chart)
      (sortByExitOrder impl.chart (exitSetOf impl.chart lp.config lp.history sel)) ++
        List.flatMap (armsFor impl.chart) (sortByDocOrder impl.chart set)) := by
    rw [he.effects, ha.effects]
    change lp₂.effects ++ _ = _
    rw [hx.effects, ← List.append_assoc]
    rfl
  have htrace : lp₅.trace = lp.trace := he.trace.trans (ha.trace.trans hx.trace)
  have hdone : lp₅.rootDone = (lp.rootDone || (sortByDocOrder impl.chart set).any (finishes impl.chart)) := by
    rw [he.rootDone, ha.rootDone]
    change (lp₂.rootDone || _) = _
    rw [hx.rootDone]
    rfl
  refine ⟨⟨impl.label ev, sel.map fun e => (e.1, e.2.index), _, sortByDocOrder impl.chart set, lp₅.acted, lp.config,
    lp.history, sel⟩, rfl, rfl, ⟨fuel, set, ?_, rfl⟩, rfl, rfl, hcfg, hhist, heff, ?_, hdone⟩
  · rw [← hset, ← he.history]
  · exact congrArg (· ++ [_]) htrace

/-- A microstep of selected transitions. -/
theorem Loop.Micro.isMicro {lp lp' : Loop T} {mt : MicroTrace}
    (h : lp.Micro c sel mt lp') (hsel : ∃ ts, sel = removeConflicts c lp.config lp.history ts ∧ ∀ e ∈ ts, Picked c lp.config e) :
    IsMicro c lp.config lp.history mt lp'.config lp'.history := by
  have htr := h.transitions
  subst htr
  exact ⟨h.from_config, h.from_history, hsel, h.exited, h.history, h.entered, h.config⟩

/-! ## Runs -/

/-- Microsteps in a row. -/
inductive MicroRun (c : RChart) : Config → History → List MicroTrace → Config → History → Prop
  | nil {cfg : Config} {hist : History} : MicroRun c cfg hist [] cfg hist
  | cons {cfg cfg₁ cfg' : Config} {hist hist₁ hist' : History} {mt : MicroTrace} {mts : List MicroTrace}
      (first : IsMicro c cfg hist mt cfg₁ hist₁) (rest : MicroRun c cfg₁ hist₁ mts cfg' hist') :
      MicroRun c cfg hist (mt :: mts) cfg' hist'

theorem MicroRun.append {cfg cfg₁ cfg' : Config} {hist hist₁ hist' : History} {mts mts' : List MicroTrace}
    (h : MicroRun c cfg hist mts cfg₁ hist₁) (h' : MicroRun c cfg₁ hist₁ mts' cfg' hist') :
    MicroRun c cfg hist (mts ++ mts') cfg' hist' := by
  induction h with
  | nil => exact h'
  | cons first _ ih => exact .cons first (ih h')

theorem MicroRun.split {cfg cfg' : Config} {hist hist' : History} {mts mts' : List MicroTrace}
    (h : MicroRun c cfg hist (mts ++ mts') cfg' hist') :
    ∃ cfg₁ hist₁, MicroRun c cfg hist mts cfg₁ hist₁ ∧ MicroRun c cfg₁ hist₁ mts' cfg' hist' := by
  induction mts generalizing cfg hist with
  | nil => exact ⟨cfg, hist, .nil, h⟩
  | cons mt mts ih =>
    cases h with
    | cons first rest =>
      obtain ⟨cfg₁, hist₁, h1, h2⟩ := ih rest
      exact ⟨cfg₁, hist₁, .cons first h1, h2⟩

theorem MicroTrace.mem_after {mt : MicroTrace} {cfg : Config} :
    n ∈ mt.after cfg ↔ (n ∈ cfg ∧ n ∉ mt.exited) ∨ n ∈ mt.entered := by
  rw [MicroTrace.after, OrderedSet.mem_union, OrderedSet.mem_difference]

/-- A state that no microstep exits stays active. -/
theorem MicroRun.active {cfg cfg' : Config} {hist hist' : History} {mts : List MicroTrace}
    (h : MicroRun c cfg hist mts cfg' hist') (hn : n ∈ cfg) (hexit : ∀ mt ∈ mts, n ∉ mt.exited) :
    (∀ mt ∈ mts, n ∈ mt.config) ∧ n ∈ cfg' := by
  induction h with
  | nil => exact ⟨fun _ hmt => absurd hmt List.not_mem_nil, hn⟩
  | cons first _ ih =>
    obtain ⟨hall, hlast⟩ := ih (first.next ▸ MicroTrace.mem_after.2 (Or.inl ⟨hn, hexit _ List.mem_cons_self⟩))
      fun mt hmt => hexit mt (List.mem_cons_of_mem _ hmt)
    refine ⟨fun mt hmt => ?_, hlast⟩
    rcases List.mem_cons.1 hmt with rfl | hmt
    · exact first.config ▸ hn
    · exact hall mt hmt

/-- Does the microstep finish the machine? -/
def MicroTrace.last (c : RChart) (mt : MicroTrace) : Bool := mt.entered.any (finishes c)

/-- What a run does to the loop. -/
structure Loop.Run (c : RChart) (lp : Loop T) (mts : List MicroTrace) (lp' : Loop T) : Prop where
  run : MicroRun c lp.config lp.history mts lp'.config lp'.history
  effects : lp'.effects = lp.effects ++ mts.flatMap (MicroTrace.requests c)
  trace : lp'.trace = lp.trace ++ mts
  rootDone : lp'.rootDone = (lp.rootDone || mts.any (MicroTrace.last c))

theorem Loop.Run.refl (c : RChart) (lp : Loop T) : lp.Run c [] lp := ⟨.nil, by simp, by simp, by simp⟩

theorem Loop.Micro.run {c : RChart} {lp lp₁ lp' : Loop T} {sel : List (NodeName × RTrans)} {mt : MicroTrace}
    {mts : List MicroTrace} (h : lp.Micro c sel mt lp₁)
    (hsel : ∃ ts, sel = removeConflicts c lp.config lp.history ts ∧ ∀ e ∈ ts, Picked c lp.config e)
    (hrun : lp₁.Run c mts lp') : lp.Run c (mt :: mts) lp' where
  run := .cons (h.isMicro hsel) hrun.run
  effects := by rw [hrun.effects, h.effects, List.flatMap_cons, List.append_assoc]
  trace := by rw [hrun.trace, h.trace, List.append_assoc, List.singleton_append]
  rootDone := by rw [hrun.rootDone, h.rootDone, List.any_cons, Bool.or_assoc, MicroTrace.last]

theorem quiesce_run {fuel : Nat} {impl : ChartImpl T} {left : Nat} : ∀ {ev : StepEvent T} {lp lp' : Loop T} {w w' : T.World},
    Yields (quiesce fuel impl left ev lp) w (.ok lp') w' → ∃ mts, lp.Run impl.chart mts lp' := by
  induction left with
  | zero =>
    intro ev lp lp' w w' h
    rw [quiesce] at h
    split_ifs at h
    · rw [yields_pure, Except.ok.injEq] at h
      exact h.1 ▸ ⟨[], Loop.Run.refl _ _⟩
    · rw [yields_pure] at h
      cases h.1
  | succ left ih =>
    intro ev lp lp' w w' h
    rw [quiesce] at h
    split_ifs at h
    · rw [yields_pure, Except.ok.injEq] at h
      exact h.1 ▸ ⟨[], Loop.Run.refl _ _⟩
    · dsimp only at h
      split at h
      · rename_i t ts hsel
        rw [yields_bind] at h
        obtain ⟨lp₁, w₁, hmicro, hrest⟩ := h
        obtain ⟨mt, hmt⟩ := microstep_micro hmicro
        obtain ⟨mts, hmts⟩ := ih hrest
        exact ⟨mt :: mts, hmt.run (hsel ▸ selectWith_picked impl lp _) hmts⟩
      · split at h
        · rw [yields_pure, Except.ok.injEq] at h
          exact h.1 ▸ ⟨[], Loop.Run.refl _ _⟩
        · rw [yields_bind] at h
          obtain ⟨lp₁, w₁, hmicro, hrest⟩ := h
          obtain ⟨mt, hmt⟩ := microstep_micro hmicro
          obtain ⟨mts, hmts⟩ := ih hrest
          obtain ⟨hrun, heff, htr, hdone⟩ := hmt.run (selectWith_picked impl _ _) hmts
          exact ⟨mt :: mts, hrun, heff, htr, hdone⟩

/-- The requests that finish a machine. -/
def closing (c : RChart) (m : Machine T) : List EffectReq :=
  match m.status with
  | .running => []
  | .finished _ => m.config.flatMap (cancelsFor c) ++ c.rootInvokes.map fun iv => .cancelInvoke iv.id

def Machine.isRunning (m : Machine T) : Bool :=
  match m.status with
  | .running => true
  | .finished _ => false

section
variable (impl : ChartImpl T) (lp : Loop T)

@[simp] theorem finalize_config : (finalize impl lp).machine.config = lp.config := by
  unfold finalize
  split <;> rfl

@[simp] theorem finalize_history : (finalize impl lp).machine.history = lp.history := by
  unfold finalize
  split <;> rfl

@[simp] theorem finalize_trace : (finalize impl lp).trace = lp.trace := by
  unfold finalize
  split <;> rfl

theorem finalize_running : (finalize impl lp).machine.isRunning = !lp.rootDone := by
  unfold finalize
  split
  · rename_i h
    rw [h]
    rfl
  · rename_i h
    rw [Bool.not_eq_true] at h
    rw [h]
    rfl

theorem finalize_effects :
    (finalize impl lp).effects = lp.effects ++ closing impl.chart (finalize impl lp).machine := by
  unfold finalize
  split
  · rfl
  · exact (List.append_nil _).symm

end

theorem yields_map {α β : Type} {x : M T (Except StepFault α)} {f : α → β} {w w' : T.World} {b : β}
    (h : Yields (do let r ← x; pure (r.map f)) w (.ok b) w') : ∃ a, Yields x w (.ok a) w' ∧ b = f a := by
  rw [yields_bind] at h
  obtain ⟨r, w₁, hx, hpure⟩ := h
  rw [yields_pure] at hpure
  obtain ⟨hr, rfl⟩ := hpure
  cases r with
  | error e => cases hr
  | ok a =>
    cases hr
    exact ⟨a, hx, rfl⟩

/-- **A macrostep is a run of microsteps**, and its requests are theirs; a
    finished machine adds the cancels of everything armed. -/
theorem step_run {fuel : Nat} {impl : ChartImpl T} {m : Machine T} {ev : StepEvent T} {s : Stepped T} {w w' : T.World}
    (h : Yields (step fuel impl m ev) w (.ok s) w') (hm : m.isRunning = true) :
    MicroRun impl.chart m.config m.history s.trace s.machine.config s.machine.history ∧
      s.effects = s.trace.flatMap (MicroTrace.requests impl.chart) ++ closing impl.chart s.machine ∧
      s.machine.isRunning = !s.trace.any (MicroTrace.last impl.chart) := by
  unfold step at h
  split at h
  · rename_i o hstatus
    rw [Machine.isRunning, hstatus] at hm
    cases hm
  · rw [yields_bind] at h
    obtain ⟨lp₁, w₁, hmicro, h⟩ := h
    obtain ⟨lp₂, hq, rfl⟩ := yields_map h
    obtain ⟨mt, hmt⟩ := microstep_micro hmicro
    obtain ⟨mts, hmts⟩ := quiesce_run hq
    obtain ⟨hrun, heff, htr, hdone⟩ := hmt.run (selectWith_picked impl _ _) hmts
    have htrace : lp₂.trace = mt :: mts := htr
    rw [finalize_config, finalize_history, finalize_effects, finalize_trace, finalize_running, htrace, heff, hdone]
    exact ⟨hrun, rfl, rfl⟩

/-- The entry of the initial configuration. -/
structure IsEntry (c : RChart) (mt : MicroTrace) : Prop where
  config : mt.config = []
  history : mt.history = []
  transitions : mt.transitions = []
  exited : mt.exited = []
  entered : ∃ fuel set, addDescendants c [] fuel c.initial [] = some set ∧ mt.entered = sortByDocOrder c set

/-- **A machine starts with the entry of its initial configuration**, after the
    root's invocations, and goes on with a run. -/
theorem initialize_run {fuel : Nat} {impl : ChartImpl T} {ctx0 : T.Ctx} {s : Stepped T} {w w' : T.World}
    (h : Yields (initializeMachine fuel impl ctx0) w (.ok s) w') :
    ∃ mt mts, IsEntry impl.chart mt ∧ s.trace = mt :: mts ∧
      MicroRun impl.chart (mt.after []) [] mts s.machine.config s.machine.history ∧
      s.effects = rootArms impl.chart ++ s.trace.flatMap (MicroTrace.requests impl.chart) ++ closing impl.chart s.machine ∧
      s.machine.isRunning = !s.trace.any (MicroTrace.last impl.chart) := by
  rw [initializeMachine, yields_bind] at h
  obtain ⟨lp₁, w₁, hact, h⟩ := h
  rw [yields_bind] at h
  obtain ⟨set, w₂, hset, h⟩ := h
  rw [yields_liftOption] at hset
  obtain ⟨hset, rfl⟩ := hset
  rw [yields_bind] at h
  obtain ⟨lp₃, w₃, henter, h⟩ := h
  obtain ⟨lp₄, hq, rfl⟩ := yields_map h
  have ha := runActions_framed hact
  have he := enterStates_entered henter
  obtain ⟨mts, hrun, heff, htr, hdone⟩ := quiesce_run hq
  have hc : lp₃.config = MicroTrace.after ⟨impl.label .init, [], [], sortByDocOrder impl.chart set, lp₃.acted, [], [], []⟩ [] := by
    rw [he.config]
    change OrderedSet.union lp₁.config _ = _
    rw [ha.config]
    rfl
  have hh : lp₃.history = [] := he.history.trans ha.history
  have heff₃ : lp₃.effects = rootArms impl.chart ++ (sortByDocOrder impl.chart set).flatMap (armsFor impl.chart) := by
    rw [he.effects]
    change lp₁.effects ++ _ ++ _ = _
    rw [ha.effects]
    rfl
  have htr₃ : lp₃.trace = [] := he.trace.trans ha.trace
  have hdone₃ : lp₃.rootDone = (sortByDocOrder impl.chart set).any (finishes impl.chart) := by
    rw [he.rootDone]
    change (lp₁.rootDone || _) = _
    rw [ha.rootDone]
    rfl
  refine ⟨⟨impl.label .init, [], [], sortByDocOrder impl.chart set, lp₃.acted, [], [], []⟩, mts,
    ⟨rfl, rfl, rfl, rfl, fuel, set, hset, rfl⟩, ?_, ?_, ?_, ?_⟩
  · rw [finalize_trace, htr]
    change lp₃.trace ++ _ ++ _ = _
    rw [htr₃]
    rfl
  · rw [finalize_config, finalize_history]
    change MicroRun impl.chart lp₃.config lp₃.history mts lp₄.config lp₄.history at hrun
    rw [hc, hh] at hrun
    exact hrun
  · rw [finalize_effects, finalize_trace, htr, heff]
    change lp₃.effects ++ _ ++ _ = _ ++ List.flatMap _ (lp₃.trace ++ _ ++ _) ++ _
    rw [heff₃, htr₃]
    simp [MicroTrace.requests]
  · rw [finalize_running, finalize_trace, htr, hdone]
    change (!(lp₃.rootDone || _)) = !List.any (lp₃.trace ++ _ ++ _) _
    rw [hdone₃, htr₃]
    rfl

end Wireform.StateMachine

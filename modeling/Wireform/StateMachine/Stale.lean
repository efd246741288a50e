/-
  The interpreter drops exactly the stale results.

  * `Emits`: the requests that the driver carries out are those of the machine's
    microsteps in their order;
  * `Posted`: the events that were accepted are in the log and in the queue, in
    their order;
  * `ActiveSince`: a state has been active since a request was emitted on its
    entry;
  * `drops_exactly_stale`: what holds of every reached driver.
-/
import Wireform.StateMachine.Tickets
import Wireform.StateMachine.Reify
import Mathlib.Logic.Relation

namespace Wireform.StateMachine

variable {T : Types}

/-! ## Blocks -/

/-- An element of a concatenation is in one of its blocks. -/
theorem mem_block {α β : Type} {f : α → List β} {x : β} {xs : List α} : ∀ {pre post : List β},
    xs.flatMap f = pre ++ x :: post → ∃ before y after p q, xs = before ++ y :: after ∧ f y = p ++ x :: q ∧
      pre = before.flatMap f ++ p ∧ post = q ++ after.flatMap f := by
  induction xs with
  | nil =>
    intro pre post h
    exact absurd h (by simp)
  | cons y ys ih =>
    intro pre post h
    rw [List.flatMap_cons] at h
    have later (l : List β) (hpre : pre = f y ++ l) (hys : ys.flatMap f = l ++ x :: post) :
        ∃ before y' after p q, y :: ys = before ++ y' :: after ∧ f y' = p ++ x :: q ∧
          pre = before.flatMap f ++ p ∧ post = q ++ after.flatMap f := by
      obtain ⟨before, y', after, p, q, rfl, hy', rfl, rfl⟩ := ih hys
      exact ⟨y :: before, y', after, p, q, rfl, hy', by rw [hpre, List.flatMap_cons, List.append_assoc], rfl⟩
    rcases List.append_eq_append_iff.1 h with ⟨l, hpre, hrest⟩ | ⟨l, hf, hrest⟩
    · exact later l hpre hrest
    · cases l with
      | nil => exact later [] (by rw [hf, List.append_nil, List.append_nil]) hrest.symm
      | cons z l =>
        rw [List.cons_append, List.cons.injEq] at hrest
        obtain ⟨rfl, hrest⟩ := hrest
        exact ⟨[], y, ys, pre, l, rfl, hf, rfl, hrest⟩

/-! ## Requests -/

/-- The requests of a step that are not carried out yet. -/
def Driver.left (d : Driver T) : List EffectReq :=
  match d.phase with
  | .applying es _ => es
  | .waiting | .releasing | .stopped => []

attribute [grind =] Driver.left

/-- Requests come from the microsteps of the machine. -/
structure Emits (c : RChart) (d : Driver T) : Prop where
  run : ∃ mt mts, IsEntry c mt ∧ d.traces = mt :: mts ∧ MicroRun c (mt.after []) [] mts d.machine.config d.machine.history
  requests : d.requests ++ d.left = rootArms c ++ d.traces.flatMap (MicroTrace.requests c) ++ closing c d.machine
  running : d.phase = .waiting → d.machine.isRunning = true

theorem Emits.congr {c : RChart} {d d' : Driver T} (h : Emits c d) (htraces : d'.traces = d.traces)
    (hmachine : d'.machine = d.machine) (hreq : d'.requests ++ d'.left = d.requests ++ d.left)
    (hrun : d'.phase = .waiting → d.machine.isRunning = true) : Emits c d' where
  run := by
    rw [htraces, hmachine]
    exact h.run
  requests := by
    rw [htraces, hmachine, hreq]
    exact h.requests
  running := by
    rw [hmachine]
    exact hrun

theorem closing_running {c : RChart} {m : Machine T} (h : m.isRunning = true) : closing c m = [] := by
  unfold closing
  unfold Machine.isRunning at h
  split at h
  · rfl
  · cases h

section
variable {host : Host T} {impl : ChartImpl T} {d d' : Driver T}

theorem emits_boot {fuel : Nat} {ctx0 : T.Ctx} {s : Stepped T} {w w' : T.World}
    (h : Yields (initializeMachine fuel impl ctx0) w (.ok s) w') : Emits impl.chart (Driver.boot s) := by
  obtain ⟨mt, mts, hentry, htr, hrun, heff, -⟩ := initialize_run h
  refine ⟨⟨mt, mts, hentry, htr, hrun⟩, heff, fun hp => ?_⟩
  cases hp

theorem Emits.stepWith (h : Emits impl.chart d) (hw : d.phase = .waiting) {ev : StepEvent T}
    {r : Except (Failure T) (Except StepFault (Stepped T))} (hr : Answers impl d.machine ev r) :
    Emits impl.chart (d.stepWith host r) := by
  have hleft : d.left = [] := by rw [Driver.left, hw]
  cases hr with
  | thrown _ =>
    refine h.congr rfl rfl (congrArg (d.requests ++ ·) hleft.symm) fun hp => ?_
    cases hp
  | @returned fuel w w' r hreturned =>
    rcases r with f | s
    · refine h.congr rfl rfl (congrArg (d.requests ++ ·) hleft.symm) fun hp => ?_
      cases hp
    · have hrunning := h.running hw
      obtain ⟨hrun, heff, -⟩ := step_run hreturned hrunning
      obtain ⟨mt, mts, hentry, htr, hmts⟩ := h.run
      refine ⟨⟨mt, mts ++ s.trace, hentry, ?_, hmts.append hrun⟩, ?_, fun hp => ?_⟩
      · change d.traces ++ s.trace = _
        rw [htr, List.cons_append]
      · have hreq := h.requests
        rw [hleft, List.append_nil, closing_running hrunning, List.append_nil] at hreq
        change d.requests ++ s.effects = rootArms impl.chart ++ (d.traces ++ s.trace).flatMap _ ++ _
        rw [hreq, heff, List.flatMap_append]
        simp only [List.append_assoc]
        rfl
      · cases hp

/-- **Every move keeps the requests those of the microsteps.** -/
theorem Emits.move (h : Emits impl.chart d) (hm : Move host impl d d') : Emits impl.chart d' := by
  cases hm with
  | fire _ => exact h.congr rfl rfl rfl h.running
  | resolve _ => exact h.congr rfl rfl rfl h.running
  | fail _ => exact h.congr rfl rfl rfl h.running
  | send =>
    unfold Driver.send
    split_ifs
    · exact h.congr rfl rfl rfl h.running
    · exact h
  | halt => exact h.congr rfl rfl rfl h.running
  | effect hp =>
    rename_i e es ss fails
    obtain ⟨started, failed, ha⟩ := applyEffect_applied host fails d e
    refine h.congr ha.traces ha.machine ?_ fun hst => by cases hst
    change (d.applyEffect host fails e).requests ++ es = _
    rw [ha.requests, Driver.left, hp, List.append_assoc, List.singleton_append]
  | deliver hp =>
    rename_i s ss
    have hsend : (d.applySend s).traces = d.traces ∧ (d.applySend s).machine = d.machine ∧
        (d.applySend s).requests = d.requests := by
      unfold Driver.applySend
      cases s.target with
      | toSelf =>
        simp only [Driver.send]
        split_ifs <;> exact ⟨rfl, rfl, rfl⟩
      | toChild i => exact ⟨rfl, rfl, rfl⟩
      | toParent => exact ⟨rfl, rfl, rfl⟩
    refine h.congr hsend.1 hsend.2.1 ?_ fun hst => by cases hst
    change (d.applySend s).requests ++ [] = _
    rw [hsend.2.2, Driver.left, hp]
  | commit hp =>
    have hleft : d.left = [] := by rw [Driver.left, hp]
    unfold Driver.committed
    split
    · rename_i hstatus
      refine h.congr rfl rfl (congrArg (d.requests ++ ·) hleft.symm) fun _ => ?_
      rw [Machine.isRunning, hstatus]
    · refine h.congr rfl rfl (congrArg (d.requests ++ ·) hleft.symm) fun hst => ?_
      cases hst
  | dispatch hw hq hr =>
    rename_i e q r
    have hleft : d.left = [] := by rw [Driver.left, hw]
    have hlog (b : Bool) : Emits impl.chart (({ d with queue := q } : Driver T).log e b) := h.congr rfl rfl rfl h.running
    by_cases he : e = .stop
    · subst he
      refine h.congr rfl rfl (congrArg (d.requests ++ ·) hleft.symm) fun hst => ?_
      cases hst
    · rw [Driver.dispatch_event _ _ _ _ he]
      split_ifs
      · obtain ⟨-, -, -, hreq, hphase, hmachine, htraces, -⟩ :=
          resolved_rest (({ d with queue := q } : Driver T).log e true) e
        have hres : Emits impl.chart ((({ d with queue := q } : Driver T).log e true).resolved e) := by
          refine (hlog true).congr htraces hmachine ?_ fun _ => h.running hw
          rw [hreq, Driver.left, hphase]
          rfl
        cases hev : e.stepEvent with
        | none => cases e <;> first | exact absurd rfl he | cases hev
        | some ev =>
          have hanswer : Answers impl ((({ d with queue := q } : Driver T).log e true).resolved e).machine ev r := by
            rw [hmachine]
            exact hr ev hev
          exact hres.stepWith (hphase.trans hw) hanswer
      · exact hlog false
  | release hp =>
    have hleft : d.left = [] := by rw [Driver.left, hp]
    refine h.congr rfl rfl (congrArg (d.requests ++ ·) hleft.symm) fun hst => ?_
    cases hst

theorem emits (h : Reached host impl d) : Emits impl.chart d := by
  induction h with
  | boot h => exact emits_boot h
  | move _ hm ih => exact ih.move hm

end

/-! ## Activity -/

/-- Request number `n` was emitted on an entry of the state, no later microstep
    exits the state, and it is active. -/
structure ActiveSince (c : RChart) (s : NodeName) (n : Nat) (traces : List MicroTrace) (cfg : Config) : Prop where
  since : ∃ before mt after, traces = before ++ mt :: after ∧ s ∈ mt.entered ∧
    (rootArms c ++ before.flatMap (MicroTrace.requests c)).length ≤ n ∧
    n < (rootArms c ++ (before ++ [mt]).flatMap (MicroTrace.requests c)).length ∧
    ∀ mt' ∈ after, s ∉ mt'.exited ∧ s ∈ mt'.config
  now : s ∈ cfg

section
variable {c : RChart} {k : TimerKey}

theorem startTimer_mem_armsFor {n : NodeName} (h : .startTimer k ∈ armsFor c n) : k.node = n ∧ k ∈ timersOf c n := by
  rcases List.mem_append.1 h with h | h
  · obtain ⟨k', hk', heq⟩ := List.mem_map.1 h
    cases heq
    refine ⟨?_, hk'⟩
    obtain ⟨t, -, ht⟩ := List.mem_filterMap.1 hk'
    unfold timerOf at ht
    split at ht
    · cases ht
      rfl
    · cases ht
  · obtain ⟨iv, -, heq⟩ := List.mem_map.1 h
    cases heq

theorem startTimer_not_mem_cancelsFor {n : NodeName} : .startTimer k ∉ cancelsFor c n := by
  intro h
  rcases List.mem_append.1 h with h | h
  · obtain ⟨k', -, heq⟩ := List.mem_map.1 h
    cases heq
  · obtain ⟨iv, -, heq⟩ := List.mem_map.1 h
    cases heq

theorem startTimer_not_mem_rootArms : .startTimer k ∉ rootArms c := by
  intro h
  obtain ⟨iv, -, heq⟩ := List.mem_map.1 h
  cases heq

/-- A timer starts where its state is entered. -/
theorem startTimer_mem_requests {mt : MicroTrace} (h : .startTimer k ∈ mt.requests c) :
    k.node ∈ mt.entered ∧ k ∈ timersOf c k.node := by
  rcases List.mem_append.1 h with h | h
  · obtain ⟨n, -, hn⟩ := List.mem_flatMap.1 h
    exact absurd hn startTimer_not_mem_cancelsFor
  · obtain ⟨n, hn, hk⟩ := List.mem_flatMap.1 h
    obtain ⟨rfl, hmem⟩ := startTimer_mem_armsFor hk
    exact ⟨hn, hmem⟩

/-- An exit of a state cancels its timers. -/
theorem cancelTimer_mem_requests {mt : MicroTrace} (hk : k ∈ timersOf c k.node) (h : k.node ∈ mt.exited) :
    .cancelTimer k ∈ mt.requests c :=
  List.mem_append_left _ (List.mem_flatMap.2 ⟨k.node, h, List.mem_append_left _ (List.mem_map_of_mem hk)⟩)

/-- **A timer that nothing touched since its start is of a state that has been
    active since.** -/
theorem activeSince {d : Driver T} (h : Emits c d) (hw : d.phase = .waiting) {pre post : List EffectReq}
    (hreq : d.requests = pre ++ .startTimer k :: post) (hpost : ∀ e ∈ post, e.source ≠ .timer k) :
    ActiveSince c k.node pre.length d.traces d.machine.config := by
  have heq := h.requests
  rw [Driver.left, hw, List.append_nil, closing_running (h.running hw), List.append_nil, hreq] at heq
  obtain ⟨l, rfl, hl⟩ : ∃ l, pre = rootArms c ++ l ∧
      d.traces.flatMap (MicroTrace.requests c) = l ++ .startTimer k :: post := by
    rcases List.append_eq_append_iff.1 heq with ⟨l, hroot, hrest⟩ | ⟨l, hpre, hrest⟩
    · cases l with
      | nil => exact ⟨[], by simpa using hroot.symm, hrest.symm⟩
      | cons x l =>
        obtain ⟨rfl, -⟩ := List.cons.inj hrest
        exact absurd (hroot ▸ List.mem_append_right _ List.mem_cons_self) startTimer_not_mem_rootArms
    · exact ⟨l, hpre, hrest⟩
  obtain ⟨before, mt, after, p, q, htr, hmt, rfl, rfl⟩ := mem_block hl
  obtain ⟨hentered, hk⟩ := startTimer_mem_requests (hmt ▸ List.mem_append_right _ List.mem_cons_self)
  -- an exit would emit a cancel of the timer after the start
  have hexit : ∀ mt' ∈ after, k.node ∉ mt'.exited := fun mt' hmt' hmem =>
    hpost _ (List.mem_append_right _ (List.mem_flatMap.2 ⟨mt', hmt', cancelTimer_mem_requests hk hmem⟩)) rfl
  obtain ⟨mt₀, mts, -, htr₀, hrun⟩ := h.run
  have hactive : (∀ mt' ∈ after, k.node ∈ mt'.config) ∧ k.node ∈ d.machine.config := by
    rw [htr] at htr₀
    cases before with
    | nil =>
      obtain ⟨rfl, rfl⟩ := List.cons.inj htr₀
      exact hrun.active (MicroTrace.mem_after.2 (Or.inr hentered)) hexit
    | cons mt₁ before =>
      obtain ⟨rfl, rfl⟩ := List.cons.inj htr₀
      obtain ⟨cfg₁, hist₁, -, hrest⟩ := hrun.split
      cases hrest with
      | cons first rest =>
        refine rest.active ?_ hexit
        rw [first.next]
        exact MicroTrace.mem_after.2 (Or.inr hentered)
  refine ⟨⟨before, mt, after, htr, hentered, by simp, ?_, fun mt' hmt' => ⟨hexit mt' hmt', hactive.1 mt' hmt'⟩⟩, hactive.2⟩
  rw [List.flatMap_append, List.flatMap_singleton, hmt]
  simp

end

/-! ## The log -/

/-- Request number `n` started the source. -/
def StartedBy (reqs : List EffectReq) (n : Nat) (s : Source) : Prop :=
  ∃ e, reqs[n]? = some e ∧ e.source = s ∧ e.starts = true

/-- No request after number `n` is about the source. -/
def Untouched (reqs : List EffectReq) (n : Nat) (s : Source) : Prop := ∀ e ∈ reqs.drop (n + 1), e.source ≠ s

/-- The driver processed a result exactly when it was current. -/
structure Fair (c : RChart) (x : Handled T) : Prop where
  started : ∀ t, x.event.thread = some t → StartedBy x.requests t.id t.source
  current : ∀ t, x.event.thread = some t → (x.processed = true ↔ Untouched x.requests t.id t.source)
  active : ∀ k gen id, x.event = .timer k gen id → x.processed = true → ActiveSince c k.node id x.traces x.config
  others : x.event.thread = none → x.processed = true

theorem Issued.startedBy {reqs : List EffectReq} {t : Thread} (h : Issued reqs t) : StartedBy reqs t.id t.source := by
  obtain ⟨pre, e, post, rfl, hid, hs, hstarts, -⟩ := h.request
  exact ⟨e, by rw [← hid]; simp, hs, hstarts⟩

section
variable {host : Host T} {impl : ChartImpl T} {d d' : Driver T}

/-- Moves log what they dispatch, with the driver as it was. -/
theorem Move.handled (hm : Move host impl d d') : d'.handled = d.handled ∨
    (d.phase = .waiting ∧ ∃ e q, d.queue = e :: q ∧
      d'.handled = d.handled ++ [⟨e, d.isCurrent e, d.requests, d.traces, d.machine.config⟩]) := by
  cases hm with
  | fire _ => exact Or.inl rfl
  | resolve _ => exact Or.inl rfl
  | fail _ => exact Or.inl rfl
  | send =>
    refine Or.inl ?_
    unfold Driver.send
    split_ifs <;> rfl
  | halt => exact Or.inl rfl
  | effect hp =>
    rename_i e es ss fails
    obtain ⟨started, failed, ha⟩ := applyEffect_applied host fails d e
    exact Or.inl ha.handled
  | deliver hp =>
    rename_i s ss
    refine Or.inl ?_
    change (d.applySend s).handled = _
    unfold Driver.applySend
    cases s.target with
    | toSelf =>
      simp only [Driver.send]
      split_ifs <;> rfl
    | toChild i => rfl
    | toParent => rfl
  | commit _ =>
    refine Or.inl ?_
    unfold Driver.committed
    split <;> rfl
  | dispatch hw hq _hr =>
    rename_i e q r
    refine Or.inr ⟨hw, e, q, hq, ?_⟩
    by_cases he : e = .stop
    · subst he
      rfl
    · rw [Driver.dispatch_event _ _ _ _ he]
      split_ifs with hcur
      · have hcur' : d.isCurrent e = true := hcur
        rw [hcur']
        have hstep (d₁ : Driver T) (r : Except (Failure T) (Except StepFault (Stepped T))) :
            (d₁.stepWith host r).handled = d₁.handled := by
          rcases r with _ | _ | _ <;> rfl
        rw [hstep, (resolved_rest _ e).2.2.1]
        rfl
      · have hcur' : d.isCurrent e = false := Bool.not_eq_true _ ▸ hcur
        rw [hcur']
        rfl
  | release _ => exact Or.inl rfl

theorem Move.requests (hm : Move host impl d d') : d.requests <+: d'.requests := by
  cases hm with
  | fire _ => exact List.prefix_refl _
  | resolve _ => exact List.prefix_refl _
  | fail _ => exact List.prefix_refl _
  | send =>
    unfold Driver.send
    split_ifs <;> exact List.prefix_refl _
  | halt => exact List.prefix_refl _
  | effect hp => exact List.prefix_append _ _
  | deliver hp =>
    rename_i s ss
    change d.requests <+: (d.applySend s).requests
    unfold Driver.applySend
    cases s.target with
    | toSelf =>
      simp only [Driver.send]
      split_ifs <;> exact List.prefix_refl _
    | toChild i => exact List.prefix_refl _
    | toParent => exact List.prefix_refl _
  | commit _ =>
    unfold Driver.committed
    split <;> exact List.prefix_refl _
  | dispatch hw hq _hr =>
    rename_i e q r
    by_cases he : e = .stop
    · subst he
      exact List.prefix_refl _
    · rw [Driver.dispatch_event _ _ _ _ he]
      split_ifs
      · have hstep (d₁ : Driver T) (r : Except (Failure T) (Except StepFault (Stepped T))) :
            (d₁.stepWith host r).requests = d₁.requests := by
          rcases r with _ | _ | _ <;> rfl
        rw [hstep, (resolved_rest _ e).2.2.2.1]
        exact List.prefix_refl _
      · exact List.prefix_refl _
  | release _ => exact List.prefix_refl _

/-- What the driver is about to take is handled fairly. -/
theorem fair_next (hs : Sound d) (he : Emits impl.chart d) (hw : d.phase = .waiting) {e : IEvent T} {q : List (IEvent T)}
    (hq : d.queue = e :: q) : Fair impl.chart ⟨e, d.isCurrent e, d.requests, d.traces, d.machine.config⟩ := by
  have hne : d.phase ≠ .stopped := fun hst => by rw [hw] at hst; cases hst
  have hissued : ∀ t, e.thread = some t → Issued d.requests t := fun t ht => by
    refine hs.issued t (List.mem_append_right _ (List.mem_append_left _ (List.mem_filterMap.2 ⟨e, ?_, ht⟩)))
    rw [hq]
    exact List.mem_cons_self
  have hcurrent : ∀ t, e.thread = some t → (d.isCurrent e = true ↔ Untouched d.requests t.id t.source) := by
    intro t ht
    have hgen := (hissued t ht).gen_eq
    have hpos : t.gen ≠ 0 := by
      obtain ⟨pre, e', post, -, -, -, -, hg⟩ := (hissued t ht).request
      omega
    rw [isCurrent_iff ht, hs.gens hne, Untouched, ← hgen]
    split_ifs with hzero
    · rw [hzero]
      exact iff_of_false (fun hsome => by cases hsome) (Ne.symm hpos)
    · exact Option.some_inj
  refine ⟨fun t ht => (hissued t ht).startedBy, hcurrent, ?_, ?_⟩
  · rintro k gen id rfl hproc
    obtain ⟨pre, e', post, hreq, hid, hsource, hstarts, -⟩ := (hissued ⟨id, .timer k, gen⟩ rfl).request
    have hunt := (hcurrent ⟨id, .timer k, gen⟩ rfl).1 hproc
    have hstart : e' = .startTimer k := by
      cases e' with
      | startTimer k' => cases hsource; rfl
      | cancelTimer k' => cases hstarts
      | startInvoke i src n => cases hsource
      | cancelInvoke i => cases hsource
    subst hstart
    subst hid
    refine activeSince he hw hreq fun x hx => hunt x ?_
    rw [hreq]
    simpa using hx
  · intro hnone
    cases e with
    | external o ev => rfl
    | stop => rfl
    | timer k gen id => cases hnone
    | invokeDone i gen v id => cases hnone
    | invokeError i gen v id => cases hnone

/-- **Every result that was taken was handled fairly.** -/
theorem handled_fair (h : Reached host impl d) : ∀ x ∈ d.handled, Fair impl.chart x ∧ x.requests <+: d.requests := by
  induction h with
  | boot _ =>
    intro x hx
    cases hx
  | @move d d' hd hm ih =>
    intro x hx
    rcases hm.handled with heq | ⟨hw, e, q, hq, heq⟩
    · rw [heq] at hx
      exact ⟨(ih x hx).1, (ih x hx).2.trans hm.requests⟩
    · rw [heq] at hx
      rcases List.mem_append.1 hx with hx | hx
      · exact ⟨(ih x hx).1, (ih x hx).2.trans hm.requests⟩
      · rw [List.mem_singleton.1 hx]
        exact ⟨fair_next (sound hd) (emits hd) hw hq, hm.requests⟩

end

/-! ## Accepted events -/

/-- Is the outcome settled? -/
def Phase.ended : Phase T → Prop
  | .waiting | .applying _ _ => False
  | .releasing | .stopped => True

/-- Accepted events are in the log and in the queue, a halt comes after them. -/
structure Posted (d : Driver T) : Prop where
  log : d.accepted = (d.handled.map Handled.event ++ d.queue).filterMap IEvent.sent
  barrier : ∀ pre post, d.queue = pre ++ .stop :: post → post.filterMap IEvent.sent = []
  closed : IEvent.stop ∈ d.queue → d.accepting = false
  halted : ∀ x ∈ d.handled, x.event = .stop → d.accepting = false ∧ d.queue.filterMap IEvent.sent = []
  outcome : d.outcome ≠ none ↔ d.phase.ended
  settled : d.outcome ≠ none → d.accepting = false

theorem posted_boot (s : Stepped T) : Posted (Driver.boot s) where
  log := rfl
  barrier pre post h := absurd h (by simp [Driver.boot])
  closed h := absurd h List.not_mem_nil
  halted x hx := absurd hx List.not_mem_nil
  outcome := iff_of_false (fun h => h rfl) id
  settled h := absurd rfl h

/-- Only the intake, the log, the queue and the phase count. -/
theorem Posted.congr {d d' : Driver T} (h : Posted d) (hacc : d'.accepted = d.accepted) (hqueue : d'.queue = d.queue)
    (hhandled : d'.handled = d.handled) (haccepting : d'.accepting = d.accepting) (houtcome : d'.outcome = d.outcome)
    (hphase : d'.phase.ended ↔ d.phase.ended) : Posted d' where
  log := by
    rw [hacc, hhandled, hqueue]
    exact h.log
  barrier := by
    rw [hqueue]
    exact h.barrier
  closed := by
    rw [hqueue, haccepting]
    exact h.closed
  halted := by
    rw [hhandled, hqueue, haccepting]
    exact h.halted
  outcome := by
    rw [houtcome, hphase]
    exact h.outcome
  settled := by
    rw [houtcome, haccepting]
    exact h.settled

/-- A stop that is not the last event was in the queue before the last ones. -/
theorem stop_split {q q' pre post : List (IEvent T)} (h : q ++ q' = pre ++ .stop :: post) (hq' : ∀ e ∈ q', e ≠ .stop) :
    ∃ post', q = pre ++ .stop :: post' ∧ post = post' ++ q' := by
  rcases List.append_eq_append_iff.1 h with ⟨l, hl, hr⟩ | ⟨l, hl, hr⟩
  · exact absurd rfl (hq' .stop (hr ▸ List.mem_append_right _ List.mem_cons_self))
  · cases l with
    | nil =>
      rw [List.nil_append] at hr
      exact absurd rfl (hq' .stop (hr ▸ List.mem_cons_self))
    | cons x l =>
      obtain ⟨rfl, rfl⟩ := List.cons.inj hr
      exact ⟨l, hl, rfl⟩

/-- Results go into the queue. -/
theorem Posted.results {d d' : Driver T} (h : Posted d) {q' : List (IEvent T)} (hq' : ∀ e ∈ q', e.thread ≠ none)
    (hqueue : d'.queue = d.queue ++ q') (hacc : d'.accepted = d.accepted) (hhandled : d'.handled = d.handled)
    (haccepting : d'.accepting = d.accepting) (houtcome : d'.outcome = d.outcome)
    (hphase : d'.phase.ended ↔ d.phase.ended) : Posted d' := by
  have hstop : ∀ e ∈ q', e ≠ .stop := by
    rintro e he rfl
    exact hq' _ he rfl
  have hsent : q'.filterMap IEvent.sent = [] := by
    refine List.filterMap_eq_nil_iff.2 fun e he => ?_
    cases e with
    | external o ev => exact absurd rfl (hq' _ he)
    | stop => rfl
    | timer k gen id => rfl
    | invokeDone i gen v id => rfl
    | invokeError i gen v id => rfl
  constructor
  · rw [hacc, h.log, hhandled, hqueue]
    simp only [List.filterMap_append, hsent, List.append_nil]
  · intro pre post heq
    rw [hqueue] at heq
    obtain ⟨post', hpre, rfl⟩ := stop_split heq hstop
    rw [List.filterMap_append, hsent, List.append_nil]
    exact h.barrier pre post' hpre
  · intro hmem
    rw [hqueue] at hmem
    rw [haccepting]
    exact h.closed ((List.mem_append.1 hmem).resolve_right fun hin => hstop _ hin rfl)
  · intro x hx hxs
    rw [hhandled] at hx
    obtain ⟨hfalse, hnil⟩ := h.halted x hx hxs
    rw [haccepting, hqueue, List.filterMap_append, hsent, List.append_nil]
    exact ⟨hfalse, hnil⟩
  · rw [houtcome, hphase]
    exact h.outcome
  · rw [houtcome, haccepting]
    exact h.settled

theorem Posted.send {d : Driver T} (h : Posted d) (o : Origin) (ev : T.EventVal) : Posted (d.send o ev) := by
  unfold Driver.send
  split_ifs with hopen
  · have hstop : ∀ e ∈ [IEvent.external (T := T) o ev], e ≠ .stop := by
      intro e he hes
      rw [List.mem_singleton.1 he] at hes
      cases hes
    have hnone : IEvent.stop ∉ d.queue := fun hmem => by
      rw [h.closed hmem] at hopen
      cases hopen
    constructor
    · change d.accepted ++ [(o, ev)] = (_ ++ (d.queue ++ [IEvent.external o ev])).filterMap _
      rw [h.log]
      simp only [List.filterMap_append, List.append_assoc]
      rfl
    · intro pre post heq
      obtain ⟨post', hpre, -⟩ := stop_split heq hstop
      exact absurd (hpre ▸ List.mem_append_right _ List.mem_cons_self) hnone
    · intro hmem
      exact absurd ((List.mem_append.1 hmem).resolve_right fun hin => hstop _ hin rfl) hnone
    · intro x hx hxs
      have hfalse := (h.halted x hx hxs).1
      rw [hopen] at hfalse
      cases hfalse
    · exact h.outcome
    · exact h.settled
  · exact h

theorem Posted.halt {d : Driver T} (h : Posted d) : Posted d.halt := by
  constructor
  · change d.accepted = (_ ++ (d.queue ++ [IEvent.stop])).filterMap _
    rw [h.log]
    simp only [List.filterMap_append]
    exact congrArg _ (List.append_nil _).symm
  · intro pre post heq
    rcases List.eq_nil_or_concat post with rfl | ⟨post', x, rfl⟩
    · rfl
    · rw [List.concat_eq_append, ← List.cons_append, ← List.append_assoc] at heq
      obtain ⟨hpre, hlast⟩ := List.append_inj' heq rfl
      cases hlast
      rw [List.concat_eq_append, List.filterMap_append, h.barrier pre post' hpre]
      rfl
  · exact fun _ => rfl
  · intro x hx hxs
    refine ⟨rfl, ?_⟩
    change (d.queue ++ [IEvent.stop]).filterMap _ = []
    rw [List.filterMap_append, (h.halted x hx hxs).2]
    rfl
  · exact h.outcome
  · exact fun _ => rfl

/-- A settled outcome closes the intake. -/
theorem Posted.settle {d : Driver T} (h : Posted d) (out : Except StepFault T.Output) : Posted (d.settle out) where
  log := h.log
  barrier := h.barrier
  closed _ := rfl
  halted x hx hxs := ⟨rfl, (h.halted x hx hxs).2⟩
  outcome := iff_of_true (by simp [Driver.settle]) trivial
  settled _ := rfl

/-- An event that no halt follows is taken. -/
theorem Posted.took {d : Driver T} (h : Posted d) {e : IEvent T} {q : List (IEvent T)} (hq : d.queue = e :: q) (b : Bool)
    (he : e ≠ .stop) : Posted (({ d with queue := q } : Driver T).log e b) := by
  constructor
  · change d.accepted = ((d.handled ++ [_]).map _ ++ q).filterMap _
    rw [h.log, hq, List.map_append]
    simp
  · intro pre post heq
    refine h.barrier (e :: pre) post ?_
    rw [hq, List.cons_append]
    exact congrArg (e :: ·) heq
  · intro hmem
    exact h.closed (hq ▸ List.mem_cons_of_mem _ hmem)
  · intro x hx hxs
    rcases List.mem_append.1 hx with hx | hx
    · obtain ⟨hfalse, hnil⟩ := h.halted x hx hxs
      refine ⟨hfalse, ?_⟩
      rw [hq] at hnil
      exact (List.filterMap_eq_nil_iff.2 fun y hy => List.filterMap_eq_nil_iff.1 hnil y (List.mem_cons_of_mem _ hy))
    · rw [List.mem_singleton.1 hx] at hxs
      exact absurd hxs he
  · exact h.outcome
  · exact h.settled

theorem Posted.took_stop {d : Driver T} (h : Posted d) {q : List (IEvent T)} (hq : d.queue = .stop :: q)
    (out : Except StepFault T.Output) : Posted ((({ d with queue := q } : Driver T).log .stop true).settle out) := by
  have hnil : q.filterMap IEvent.sent = [] := h.barrier [] q hq
  constructor
  · change d.accepted = ((d.handled ++ [_]).map _ ++ q).filterMap _
    rw [h.log, hq, List.map_append]
    simp
  · intro pre post heq
    exact h.barrier (.stop :: pre) post (by rw [hq, List.cons_append]; exact congrArg (.stop :: ·) heq)
  · exact fun _ => rfl
  · exact fun _ _ _ => ⟨rfl, hnil⟩
  · exact iff_of_true (by simp [Driver.settle]) trivial
  · exact fun _ => rfl

section
variable {host : Host T} {impl : ChartImpl T} {d d' : Driver T}

theorem Posted.stepWith (h : Posted d) (hw : d.phase = .waiting) (r : Except (Failure T) (Except StepFault (Stepped T))) :
    Posted (d.stepWith host r) := by
  rcases r with e | f | s
  · exact h.settle _
  · exact h.settle _
  · refine h.congr rfl rfl rfl rfl rfl ?_
    rw [hw]
    exact Iff.rfl

/-- **Every move keeps the accepted events in their order.** -/
theorem Posted.move (h : Posted d) (hm : Move host impl d d') : Posted d' := by
  cases hm with
  | fire _ =>
    refine h.results (fun e he => ?_) rfl rfl rfl rfl rfl Iff.rfl
    rw [List.mem_singleton.1 he]
    exact Option.some_ne_none _
  | resolve _ =>
    refine h.results (fun e he => ?_) rfl rfl rfl rfl rfl Iff.rfl
    rw [List.mem_singleton.1 he]
    exact Option.some_ne_none _
  | fail _ =>
    refine h.results (fun e he => ?_) rfl rfl rfl rfl rfl Iff.rfl
    rw [List.mem_singleton.1 he]
    exact Option.some_ne_none _
  | send => exact h.send _ _
  | halt => exact h.halt
  | effect hp =>
    rename_i e es ss fails
    obtain ⟨started, failed, ha⟩ := applyEffect_applied host fails d e
    refine h.results ha.results ha.queue ha.accepted ha.handled ha.accepting ha.outcome ?_
    rw [hp]
    exact Iff.rfl
  | deliver hp =>
    rename_i s ss
    have hsend : Posted (d.applySend s) ∧ (d.applySend s).phase = d.phase := by
      unfold Driver.applySend
      cases s.target with
      | toSelf =>
        refine ⟨h.send _ _, ?_⟩
        unfold Driver.send
        split_ifs <;> rfl
      | toChild i => exact ⟨h, rfl⟩
      | toParent => exact ⟨h, rfl⟩
    refine hsend.1.congr rfl rfl rfl rfl rfl ?_
    rw [hsend.2, hp]
    exact Iff.rfl
  | commit hp =>
    unfold Driver.committed
    split
    · refine h.congr rfl rfl rfl rfl rfl ?_
      rw [hp]
      exact Iff.rfl
    · exact h.settle _
  | dispatch hw hq _hr =>
    rename_i e q r
    by_cases he : e = .stop
    · subst he
      exact h.took_stop hq _
    · rw [Driver.dispatch_event _ _ _ _ he]
      split_ifs
      · obtain ⟨-, hqueue, hhandled, -, hphase, -, -, hacc, haccepting, houtcome⟩ :=
          resolved_rest (({ d with queue := q } : Driver T).log e true) e
        refine Posted.stepWith ?_ (hphase.trans hw) r
        exact (h.took hq true he).congr hacc hqueue hhandled haccepting houtcome (by rw [hphase])
      · exact h.took hq false he
  | release hp =>
    refine h.congr rfl rfl rfl rfl rfl ?_
    rw [hp]
    exact Iff.rfl

theorem posted (h : Reached host impl d) : Posted d := by
  induction h with
  | boot _ => exact posted_boot _
  | move _ hm ih => exact ih.move hm

end

/-! ## What the driver drops -/

/-- The driver's guarantee. -/
structure DropsStale (host : Host T) (impl : ChartImpl T) (d : Driver T) : Prop where
  /-- A result is processed exactly when no request about its timer or invocation
      came after the start that it answers; a timer's state has then been active
      since that start.  Everything else is processed. -/
  fair : ∀ x ∈ d.handled, Fair impl.chart x ∧ x.requests <+: d.requests
  /-- At most one result for each start. -/
  once : ((d.handled.filterMap fun x => x.event.thread).map Thread.id).Nodup
  /-- No result is lost: a current start has its thread at work, its result in the
      queue, or its result processed. -/
  kept : d.phase ≠ .stopped → ∀ n s, StartedBy d.requests n s → Untouched d.requests n s →
    (∃ t ∈ d.threads, t.id = n) ∨ (∃ e ∈ d.queue, ∃ t, e.thread = some t ∧ t.id = n) ∨
      ∃ x ∈ d.handled, x.processed = true ∧ ∃ t, x.event.thread = some t ∧ t.id = n
  /-- The accepted events are processed once each and in their order; those that
      are not yet are in the queue. -/
  sends : d.accepted = (d.handled.filter Handled.processed).filterMap (fun x => x.event.sent) ++ d.queue.filterMap IEvent.sent
  /-- A halt leaves no accepted event behind. -/
  halted : (∃ x ∈ d.handled, x.event = .stop) → d.queue.filterMap IEvent.sent = []
  /-- After a terminal state nothing is processed and the machine stays as it is. -/
  ended : d.outcome ≠ none → ∀ d', Relation.ReflTransGen (Move host impl) d d' →
    d'.handled = d.handled ∧ d'.machine = d.machine ∧ d'.outcome = d.outcome
  /-- The driver then releases everything, and nothing is armed. -/
  released : d.outcome ≠ none → Move host impl d d.releaseAll ∨ (d.threads = [] ∧ d.armed = emptyArmed)
  stopped : d.phase = .stopped → d.threads = [] ∧ d.armed = emptyArmed

section
variable {host : Host T} {impl : ChartImpl T} {d d' : Driver T}

/-- Nothing follows a settled outcome but the release. -/
theorem Move.ended (hm : Move host impl d d') (hp : d.phase.ended) :
    d'.handled = d.handled ∧ d'.machine = d.machine ∧ d'.outcome = d.outcome ∧ d'.phase.ended := by
  cases hm with
  | fire _ => exact ⟨rfl, rfl, rfl, hp⟩
  | resolve _ => exact ⟨rfl, rfl, rfl, hp⟩
  | fail _ => exact ⟨rfl, rfl, rfl, hp⟩
  | send =>
    unfold Driver.send
    split_ifs <;> exact ⟨rfl, rfl, rfl, hp⟩
  | halt => exact ⟨rfl, rfl, rfl, hp⟩
  | effect h => rw [h] at hp; exact hp.elim
  | deliver h => rw [h] at hp; exact hp.elim
  | commit h => rw [h] at hp; exact hp.elim
  | dispatch h _ _ => rw [h] at hp; exact hp.elim
  | release _ => exact ⟨rfl, rfl, rfl, trivial⟩

theorem ended_moves (hp : d.phase.ended) (hm : Relation.ReflTransGen (Move host impl) d d') :
    d'.handled = d.handled ∧ d'.machine = d.machine ∧ d'.outcome = d.outcome ∧ d'.phase.ended := by
  induction hm with
  | refl => exact ⟨rfl, rfl, rfl, hp⟩
  | tail _ hm ih =>
    obtain ⟨hhandled, hmachine, houtcome, hended⟩ := ih
    obtain ⟨hhandled', hmachine', houtcome', hended'⟩ := hm.ended hended
    exact ⟨hhandled'.trans hhandled, hmachine'.trans hmachine, houtcome'.trans houtcome, hended'⟩

theorem untouched_prefix {reqs reqs' : List EffectReq} {n : Nat} {s : Source} (h : Untouched reqs' n s)
    (hpre : reqs <+: reqs') : Untouched reqs n s := by
  obtain ⟨l, rfl⟩ := hpre
  intro e he
  refine h e ?_
  rw [List.drop_append]
  exact List.mem_append_left _ he

/-- A current start is at work, in the queue or processed. -/
theorem current_kept (h : Reached host impl d) (hne : d.phase ≠ .stopped) {n : Nat} {s : Source} (hs : StartedBy d.requests n s)
    (hu : Untouched d.requests n s) :
    (∃ t ∈ d.threads, t.id = n) ∨ (∃ e ∈ d.queue, ∃ t, e.thread = some t ∧ t.id = n) ∨
      ∃ x ∈ d.handled, x.processed = true ∧ ∃ t, x.event.thread = some t ∧ t.id = n := by
  obtain ⟨e, he, rfl, hstarts⟩ := hs
  obtain ⟨hlt, he⟩ := List.getElem?_eq_some_iff.1 he
  have hreq : d.requests = d.requests.take n ++ e :: d.requests.drop (n + 1) := by
    rw [← he, List.getElem_cons_drop, List.take_append_drop]
  have hlen : (d.requests.take n).length = n := List.length_take_of_le hlt.le
  obtain ⟨t, ht, hid⟩ := List.mem_map.1 ((sound h).kept hne _ e _ hreq hstarts hu)
  rw [hlen] at hid
  rcases List.mem_append.1 ht with ht | ht
  · exact Or.inl ⟨t, ht, hid⟩
  · rcases List.mem_append.1 ht with ht | ht
    · obtain ⟨x, hx, hxt⟩ := List.mem_filterMap.1 ht
      exact Or.inr (Or.inl ⟨x, hx, t, hxt, hid⟩)
    · obtain ⟨ev, hev, hxt⟩ := List.mem_filterMap.1 ht
      obtain ⟨x, hx, rfl⟩ := List.mem_map.1 hev
      obtain ⟨hfair, hpre⟩ := handled_fair h x hx
      refine Or.inr (Or.inr ⟨x, hx, (hfair.current t hxt).2 ?_, t, hxt, hid⟩)
      -- the request of the ticket is the one that starts the source
      have hsource : t.source = e.source := by
        obtain ⟨e', he', hs', -⟩ := hfair.started t hxt
        obtain ⟨l, hl⟩ := hpre
        have hlt' := (List.getElem?_eq_some_iff.1 he').1
        have hget : d.requests[t.id]? = some e' := by
          rw [← hl, List.getElem?_append_left hlt']
          exact he'
        rw [hid, List.getElem?_eq_getElem hlt, he] at hget
        rw [← hs', Option.some.inj hget]
      rw [hid, hsource]
      exact untouched_prefix hu hpre

end

/-! ### A run -/

def plainTypes : Types := ⟨Unit, Unit, Unit, Unit, Unit, Empty, fun _ => "event"⟩

/-- A state with a delay of five milliseconds. -/
def nap : ChartSpec where
  name := "nap"
  events := []
  states := [.atomic "asleep" [.trans ⟨.after 5, none, ["awake"], [], false⟩], .final "awake" none]
  initial := "asleep"
  rootFeatures := []

def napImpl : ChartImpl plainTypes := ⟨assemble nap, fun _ => none, fun _ => none, fun _ => none, fun _ => (), fun _ => ""⟩

def napHost : Host plainTypes := ⟨fun _ => none, fun _ => (), fun _ => ""⟩

def napKey : TimerKey := ⟨"asleep", 5, 0⟩

def napStart : Stepped plainTypes where
  machine := ⟨["asleep"], (), [], .running⟩
  effects := [.startTimer napKey]
  sends := []
  trace := [⟨"", [], [], ["asleep"], [], [], [], []⟩]

/-- What the timer's step comes to. -/
def napEnd : Stepped plainTypes where
  machine := ⟨["awake"], (), [], .finished ()⟩
  effects := [.cancelTimer napKey]
  sends := []
  trace := [⟨"", [("asleep", 0)], ["asleep"], ["awake"], [], ["asleep"], [],
    [("asleep", ⟨.after 5, none, ["awake"], [], false, 0⟩)]⟩]

/-- The timer is started, it fires, and its event is taken. -/
def napFired : Driver plainTypes :=
  let d := { (Driver.boot napStart).applyEffect napHost none (.startTimer napKey) with phase := .applying [] [] }
  let d' := (d.committed.cancel (some 0)).enqueue (.timer napKey 1 0)
  { d' with queue := [] }.dispatch napHost (.timer napKey 1 0) (.ok (.ok napEnd))

end Wireform.StateMachine

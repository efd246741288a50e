/-
  The simulator conserves messages, fibers and variables.

  `Conserved w₀ ms w` collects what holds at the end `w` of a run `ms` from
  `w₀`, and of the next move from there.  `conservation` proves it of every run
  of every scenario, so it holds after each prefix of a run as well.
-/
import Wireform.Sim.Variables

namespace Wireform.Sim

open AssocMap Transition

variable {P : Platform}

/-! ## The liveness of a node -/

theorem liveness_modNode (n n' : NodeId) (f : NodeState P → NodeState P) (w : World P) :
    liveness n' (modNode n f w) =
      if n' = n then (w.nodes.lookup n).map fun ns => ((f ns).alive, (f ns).pausedUntil) else liveness n' w := by
  have hlookup : (modNode n f w).nodes.lookup n' = if n' = n then (w.nodes.lookup n).map f else w.nodes.lookup n' :=
    lookup_adjust f n n' w.nodes
  rw [liveness, hlookup]
  split_ifs with hn
  · exact Option.map_map _ _ _
  · rfl

/-- What a fault does to the liveness of a node. -/
def faultLiveness (n : NodeId) (l : Option (Bool × Option SimTime)) : FaultOp → Option (Bool × Option SimTime)
  | .crashNode n' => if n = n' then l.map fun p => (false, p.2) else l
  | .rebootNode n' => if n = n' then some (true, none) else l
  | .pauseNode n' t | .diskLatency n' t => if n = n' then l.map fun p => (p.1, some t) else l
  | .dropMessage _ | .partition _ _ | .heal _ _ | .clog _ _ _ | .clockSkew _ _ | .corruptWrite _ | .tearWrite _ => l

attribute [grind =] faultLiveness

theorem liveness_fault (n : NodeId) (w : World P) (op : FaultOp) :
    liveness n (applyFault op w).1 = faultLiveness n (liveness n w) op := by
  have hmod : ∀ n' (f : NodeState P → NodeState P), liveness n (modNode n' f w) =
      if n = n' then (w.nodes.lookup n').map fun ns => ((f ns).alive, (f ns).pausedUntil) else liveness n w :=
    fun n' f => liveness_modNode n' n f w
  cases op with
  | dropMessage | partition | heal | clog => rfl
  | crashNode n' =>
    refine (hmod n' clearVol).trans ?_
    rw [faultLiveness]
    split_ifs with hn
    · subst hn
      rw [liveness, Option.map_map]
      rfl
    · rfl
  | rebootNode n' =>
    have hset : ∀ w' : World P, w'.nodes = (setNode n' { nodeOf n' w with alive := true, pausedUntil := none } w).nodes →
        liveness n w' = if n = n' then some (true, none) else liveness n w := by
      intro w' hw
      rw [liveness, hw]
      exact liveness_setNode _ _ _ _
    show liveness n (rebootNode n' w) = _
    unfold rebootNode
    split
    · exact hset _ rfl
    · exact hset _ rfl
  | pauseNode n' t | diskLatency n' t =>
    refine (hmod n' _).trans ?_
    rw [faultLiveness]
    split_ifs with hn
    · subst hn
      rw [liveness, Option.map_map]
      rfl
    · rfl
  | clockSkew n' _ | corruptWrite n' | tearWrite n' =>
    refine (hmod n' _).trans ?_
    split_ifs with hn
    · rw [hn]
      rfl
    · rfl

/-- The clock ends pauses that are over. -/
theorem liveness_advanceClock (n : NodeId) (w : World P) :
    liveness n (advanceClock w) = liveness n w ∨ ∃ a t, liveness n w = some (a, some t) ∧
      t ≤ (advanceClock w).clock ∧ liveness n (advanceClock w) = some (a, none) := by
  obtain ⟨clk, _, h | h⟩ := advanceClock_eq w
  · have hlookup : (wakeDue { w with clock := clk }).nodes.lookup n = (w.nodes.lookup n).map (unpause clk) :=
      lookup_map (unpause clk) n w.nodes
    rw [h]
    unfold liveness
    rw [hlookup]
    cases w.nodes.lookup n with
    | none => exact Or.inl rfl
    | some ns =>
      simp only [Option.map_some]
      unfold unpause
      split
      · rename_i t ht
        split_ifs with hle
        · exact Or.inr ⟨ns.alive, t, by rw [ht], hle, rfl⟩
        · exact Or.inl rfl
      · exact Or.inl rfl
  · rw [h]
    exact Or.inl rfl

variable {w w' : World P} {m : Move} {ms : List Move} {n : NodeId}

/-- What a move does to the liveness of a node. -/
theorem liveness_move (hg : Good w) (h : moveStep w m = some w') (n : NodeId) :
    (firedFault w m = none ∧ (liveness n w' = liveness n w ∨
      ∃ a t, liveness n w = some (a, some t) ∧ t ≤ w'.clock ∧ liveness n w' = some (a, none))) ∨
    ∃ op, firedFault w m = some op ∧ liveness n w' = faultLiveness n (liveness n w) op := by
  cases moved hg h with
  | @ran f fb prog w₁ evs out hf hs hr hup hrun =>
    obtain ⟨p, hp, _⟩ := nodeUp_iff.1 hup
    have hsame : liveness n w₁ = liveness n w := (runReady_ran hrun).liveness (by rw [hp]; rfl) n
    exact Or.inl ⟨rfl, Or.inl hsame⟩
  | delivered => exact Or.inl ⟨rfl, Or.inl rfl⟩
  | @fired i op hop => exact Or.inr ⟨op, hop, liveness_fault n w op⟩
  | ticked => exact Or.inl ⟨rfl, liveness_advanceClock n w⟩

theorem clock_fault (op : FaultOp) (w : World P) : (applyFault op w).1.clock = w.clock := by
  cases op with
  | rebootNode n =>
    show (rebootNode n w).clock = _
    unfold rebootNode
    split <;> rfl
  | _ => rfl

/-- The clock does not go back. -/
theorem clock_move (hg : Good w) (h : moveStep w m = some w') : w.clock ≤ w'.clock := by
  cases moved hg h with
  | ran hf hs hr hup hrun => exact UInt64.le_of_eq (runReady_ran hrun).clock.symm
  | delivered => exact UInt64.le_refl _
  | @fired i op hop => exact UInt64.le_of_eq (clock_fault op w).symm
  | ticked =>
    obtain ⟨clk, hle, h | h⟩ := advanceClock_eq w
    · rw [h]
      exact hle
    · rw [h]
      exact UInt64.le_refl _

/-! ## Crashes and pauses -/

theorem fired_snoc {w₀ w : World P} (h : run moveStep w₀ ms = some w) (m : Move) :
    fired w₀ (ms ++ [m]) = fired w₀ ms ++ (firedFault w m).toList := by
  rw [fired, trace_snoc h, List.filterMap_append, filterMap_cons_toList]
  simp [fired]

/-- The last entry of a list, or one before it. -/
theorem snoc_split {α : Type} {xs l₁ l₂ : List α} {o : Option α} {x : α} (h : xs ++ o.toList = l₁ ++ x :: l₂) :
    (o = some x ∧ l₂ = []) ∨ ∃ l₃, xs = l₁ ++ x :: l₃ ∧ l₂ = l₃ ++ o.toList := by
  cases o with
  | none =>
    rw [Option.toList_none, List.append_nil] at h
    exact Or.inr ⟨l₂, h, (List.append_nil _).symm⟩
  | some y =>
    rcases List.eq_nil_or_concat l₂ with rfl | ⟨l₃, z, rfl⟩
    · exact Or.inl ⟨congrArg some (List.singleton_inj.1 (List.append_inj' h rfl).2), rfl⟩
    · rw [List.concat_eq_append, ← List.cons_append, ← List.append_assoc] at h
      obtain ⟨hxs, hy⟩ := List.append_inj' h rfl
      cases hy
      exact Or.inr ⟨l₃, hxs, List.concat_eq_append⟩

/-- The node is not alive. -/
def Down (n : NodeId) (w : World P) : Prop := ∀ p, liveness n w ≠ some (true, p)

/-- The node is paused until `t`, or that time has come. -/
def Paused (n : NodeId) (t : SimTime) (w : World P) : Prop := t ≤ w.clock ∨ ∃ a, liveness n w = some (a, some t)

theorem down_move (hg : Good w) (h : moveStep w m = some w') (hdown : Down n w)
    (hno : firedFault w m ≠ some (.rebootNode n)) : Down n w' := by
  intro p hp
  rcases liveness_move hg h n with ⟨_, hsame | ⟨a, t, hold, _, hnew⟩⟩ | ⟨op, hop, hnew⟩
  · exact hdown p (hsame ▸ hp)
  · rw [hnew] at hp
    cases hp
    exact hdown _ hold
  · rw [hnew] at hp
    -- a change of the pause alone leaves the node as alive as it was
    have hpause : ∀ t, (liveness n w).map (fun q => (q.1, some t)) ≠ some (true, p) := by
      intro t ht
      obtain ⟨⟨a, q⟩, hq, he⟩ := Option.map_eq_some_iff.1 ht
      cases he
      exact hdown _ hq
    cases op with
    | crashNode n' =>
      rw [faultLiveness] at hp
      split_ifs at hp with hn
      · obtain ⟨q, _, hq⟩ := Option.map_eq_some_iff.1 hp
        cases hq
      · exact hdown p hp
    | rebootNode n' =>
      rw [faultLiveness] at hp
      split_ifs at hp with hn
      · exact hno (by rw [hop, hn])
      · exact hdown p hp
    | pauseNode n' t | diskLatency n' t =>
      rw [faultLiveness] at hp
      split_ifs at hp with hn
      · exact hpause t hp
      · exact hdown p hp
    | dropMessage | partition | heal | clog | clockSkew | corruptWrite | tearWrite => exact hdown p hp

/-- A fault of the menu is offered for a reason. -/
theorem mem_forKind_of_fired {w : World P} {op : FaultOp} (h : firedFault w m = some op) :
    ∃ k, op ∈ forKind w k := by
  unfold firedFault at h
  split at h
  · split_ifs at h
    have hmem := List.mem_of_getElem? h
    unfold availableFaults at hmem
    split_ifs at hmem
    · cases hmem
    · cases hmem
    · obtain ⟨k, _, hk⟩ := List.mem_flatMap.1 hmem
      exact ⟨k, hk⟩
  all_goals cases h

theorem alive_of_mem {w : World P} (hg : Good w) (h : n ∈ aliveNodes w) :
    ∃ ns, w.nodes.lookup n = some ns ∧ ns.alive = true := by
  obtain ⟨⟨n', ns⟩, hmem, rfl⟩ := List.mem_map.1 h
  rw [List.mem_filter] at hmem
  exact ⟨ns, (hg.nodes.mem_iff n' ns).1 hmem.1, hmem.2⟩

/-- A pause is offered for a live node that is not paused. -/
theorem pause_offered {w : World P} (hg : Good w) (h : n ∈ (aliveNodes w).filter (notPaused w)) :
    ∃ p, liveness n w = some (true, p) ∧ ∀ t ∈ p, t ≤ w.clock := by
  rw [List.mem_filter] at h
  obtain ⟨ns, hns, halive⟩ := alive_of_mem hg h.1
  have hpaused := h.2
  rw [notPaused, nodeTest, hns] at hpaused
  refine ⟨ns.pausedUntil, by rw [liveness, hns, ← halive]; rfl, fun t ht => ?_⟩
  have hu : ns.pausedUntil = some t := ht
  simp only [Option.map_some, Option.getD_some, hu, decide_eq_true_eq] at hpaused
  exact hpaused

theorem pause_fired {w : World P} (hg : Good w) {t : SimTime}
    (h : firedFault w m = some (.pauseNode n t) ∨ firedFault w m = some (.diskLatency n t)) :
    ∃ p, liveness n w = some (true, p) ∧ ∀ t ∈ p, t ≤ w.clock := by
  rcases h with h | h
  · obtain ⟨k, hk⟩ := mem_forKind_of_fired h
    cases k <;> simp [forKind] at hk
    exact pause_offered hg (List.mem_filter.2 ⟨hk.1.1, hk.1.2⟩)
  · obtain ⟨k, hk⟩ := mem_forKind_of_fired h
    cases k <;> simp [forKind] at hk
    exact pause_offered hg (List.mem_filter.2 ⟨hk.1.1, hk.1.2⟩)

theorem paused_move {t : SimTime} (hg : Good w) (h : moveStep w m = some w')
    (hpaused : Paused n t w) (hno : firedFault w m ≠ some (.rebootNode n)) : Paused n t w' := by
  rcases hpaused with hle | ⟨a, ha⟩
  · exact Or.inl (UInt64.le_trans hle (clock_move hg h))
  rcases liveness_move hg h n with ⟨_, hsame | ⟨a', t', hold, hle, hnew⟩⟩ | ⟨op, hop, hnew⟩
  · exact Or.inr ⟨a, hsame.trans ha⟩
  · rw [ha] at hold
    cases hold
    exact Or.inl hle
  · rw [ha] at hnew
    have hover : (∃ t', op = .pauseNode n t' ∨ op = .diskLatency n t') → Paused n t w' := by
      rintro ⟨t', hp⟩
      obtain ⟨p, hp', hdue⟩ := pause_fired hg (n := n) (t := t') (by rw [hop]; exact hp.imp (congrArg some) (congrArg some))
      rw [ha] at hp'
      cases hp'
      exact Or.inl (UInt64.le_trans (hdue t rfl) (clock_move hg h))
    cases op with
    | crashNode n' =>
      rw [faultLiveness] at hnew
      split_ifs at hnew
      · exact Or.inr ⟨_, hnew⟩
      · exact Or.inr ⟨_, hnew⟩
    | rebootNode n' =>
      rw [faultLiveness] at hnew
      split_ifs at hnew with hn
      · exact (hno (by rw [hop, hn])).elim
      · exact Or.inr ⟨_, hnew⟩
    | pauseNode n' t' =>
      by_cases hn : n = n'
      · exact hover ⟨t', Or.inl (by rw [hn])⟩
      · exact Or.inr ⟨a, hnew.trans (if_neg hn)⟩
    | diskLatency n' t' =>
      by_cases hn : n = n'
      · exact hover ⟨t', Or.inr (by rw [hn])⟩
      · exact Or.inr ⟨a, hnew.trans (if_neg hn)⟩
    | dropMessage | partition | heal | clog | clockSkew | corruptWrite | tearWrite => exact Or.inr ⟨a, hnew⟩

/-- **What a fault establishes of a node holds until the node reboots.** -/
theorem until_reboot {w₀ w : World P} (hg₀ : Good w₀) (hrun : run moveStep w₀ ms = some w)
    {op : FaultOp} {K : World P → Prop}
    (hfire : ∀ {w w' : World P} {m : Move}, Good w → moveStep w m = some w' → firedFault w m = some op → K w')
    (hkeep : ∀ {w w' : World P} {m : Move}, Good w → moveStep w m = some w' → K w →
      firedFault w m ≠ some (.rebootNode n) → K w')
    {l₁ l₂ : List FaultOp} (hl : fired w₀ ms = l₁ ++ op :: l₂) (hno : FaultOp.rebootNode n ∉ l₂) : K w := by
  induction ms using List.reverseRecOn generalizing w l₂ with
  | nil => exact absurd hl (by simp [fired, trace])
  | append_singleton ms m ih =>
    obtain ⟨w₁, hrun₁, hm⟩ := run_append.1 hrun
    obtain ⟨w₂, hm, hnil⟩ := run_cons.1 hm
    cases hnil
    have hg := good_run hg₀ hrun₁
    rw [fired_snoc hrun₁] at hl
    rcases snoc_split hl with ⟨hop, _⟩ | ⟨l₃, hl', rfl⟩
    · exact hfire hg hm hop
    · rw [List.mem_append, not_or] at hno
      refine hkeep hg hm (ih hrun₁ hl' hno.1) fun hop => hno.2 ?_
      rw [hop]
      exact List.mem_singleton.2 rfl

/-! ## Killed fibers -/

/-- A dead fiber stays dead. -/
theorem dead_move (hg : Good w) (h : moveStep w m = some w') {f : FiberId} {fb : Fiber P}
    (hf : w.fibers.lookup f = some fb) (hdead : fb.status = .dead) :
    ∃ fb', w'.fibers.lookup f = some fb' ∧ fb'.status = .dead := by
  cases moved hg h with
  | @ran f' fb' prog w₁ evs out hf' hs hr hup hrun =>
    have hne : f ≠ f' := by
      rintro rfl
      rw [hf] at hf'
      cases hf'
      rw [hdead] at hs
      cases hs
    exact ⟨fb, (lookup_insert _ _ _ _).trans ((if_neg hne).trans
      (((runReady_ran hrun).fiberOld f (hg.fiberIds f fb hf)).trans hf)), hdead⟩
  | @delivered m' inf f' k hm hdue hlink hup hf' =>
    have hne : f ≠ f' := by
      rintro rfl
      rw [hf] at hf'
      cases hf'
      cases hdead
    exact ⟨fb, (lookup_insert _ _ _ _).trans ((if_neg hne).trans hf), hdead⟩
  | @fired i op hop =>
    cases op with
    | crashNode n =>
      refine ⟨killFiber n fb, (lookup_map (killFiber n) f w.fibers).trans (by rw [hf]; rfl), ?_⟩
      unfold killFiber
      split_ifs
      · rfl
      · exact hdead
    | rebootNode n =>
      refine ⟨fb, ?_, hdead⟩
      show (rebootNode n w).fibers.lookup f = some fb
      unfold rebootNode
      split
      · exact hf
      · exact (lookup_insert _ _ _ _).trans ((if_neg (hg.fiberIds f fb hf).ne).trans hf)
    | _ => exact ⟨fb, hf, hdead⟩
  | ticked =>
    obtain ⟨clk, _, h | h⟩ := advanceClock_eq w
    · rw [h]
      refine ⟨wakeFib clk fb, (lookup_map (wakeFib clk) f w.fibers).trans (by rw [hf]; rfl), ?_⟩
      unfold wakeFib
      rw [hdead]
      exact hdead
    · rw [h]
      exact ⟨fb, hf, hdead⟩

/-- The fibers killed in a run are dead. -/
theorem killed_dead {w₀ w : World P} (hg₀ : Good w₀) (hrun : run moveStep w₀ ms = some w) {f : FiberId}
    (hf : f ∈ killed w₀ ms) : ∃ fb, w.fibers.lookup f = some fb ∧ fb.status = .dead := by
  induction ms using List.reverseRecOn generalizing w with
  | nil => exact absurd hf (by simp [killed, trace])
  | append_singleton ms m ih =>
    obtain ⟨w₁, hrun₁, hm⟩ := run_append.1 hrun
    obtain ⟨w₂, hm, hnil⟩ := run_cons.1 hm
    cases hnil
    have hg := good_run hg₀ hrun₁
    rw [killed, trace_snoc hrun₁, List.flatMap_append, List.flatMap_singleton] at hf
    rcases List.mem_append.1 hf with hf | hf
    · obtain ⟨fb, hfb, hdead⟩ := ih hrun₁ hf
      exact dead_move hg hm hfb hdead
    · cases moved hg hm with
      | ran => cases hf
      | delivered => cases hf
      | ticked => cases hf
      | @fired i op hop =>
        rw [killedIn, hop] at hf
        cases op with
        | crashNode n =>
          obtain ⟨⟨f', fb⟩, hmem, rfl⟩ := List.mem_map.1 hf
          rw [List.mem_filter, decide_eq_true_eq] at hmem
          refine ⟨killFiber n fb, (lookup_map (killFiber n) f' w₁.fibers).trans ?_, ?_⟩
          · rw [(hg.fibers.mem_iff f' fb).1 hmem.1]
            rfl
          · rw [killFiber, if_pos hmem.2]
        | _ => cases hf

/-! ## Identifiers -/

theorem Performed.nextFiber {node : NodeId} {op : SimOp P} (h : Performed node w op w') :
    w'.nextFiber = w.nextFiber := by
  cases h with
  | sent dst body =>
    unfold doSend
    dsimp only
    split_ifs <;> rfl
  | drew hop g b => rfl
  | stored hop g halive hpaused => rfl

theorem rebooted_between (n : NodeId) (w : World P) : w.nextFiber ≤ (rebootNode n w).nextFiber ∧
    Between w.nextFiber (rebootNode n w).nextFiber (rebooted w (.rebootNode n)) := by
  rw [rebootNode, rebooted]
  cases hp : w.nodePrograms.lookup n with
  | none => exact ⟨le_rfl, between_nil _ _⟩
  | some p => exact ⟨Int.le.intro 1 rfl, between_singleton (Int.lt_succ _)⟩

/-- The fibers started in a move. -/
theorem started_between (hg : Good w) (h : moveStep w m = some w') :
    w.nextFiber ≤ w'.nextFiber ∧ Between w.nextFiber w'.nextFiber (startedIn (w, m)) := by
  cases moved hg h with
  | @ran f fb prog w₁ evs out hf hs hr hup hrun =>
    have hids := goP_between fb.node World.nextFiber (fun a => startedBy (fb.node, a))
      (fun hp => by
        rw [(performed hp).nextFiber]
        exact ⟨le_rfl, between_nil _ _⟩)
      (fun w p => ⟨Int.le.intro 1 rfl, between_singleton (Int.lt_succ _)⟩) hrun
    rw [startedIn, moveActs_ran hf hs hr, List.filterMap_map,
      show (firedFault w (.decide (.schedNext f))).elim [] (rebooted w) = [] from rfl, List.append_nil]
    exact hids
  | delivered => exact ⟨le_rfl, between_nil _ _⟩
  | @fired i op hop =>
    have hin : startedIn (w, .decide (.fireFault i)) = rebooted w op := by
      rw [startedIn, hop]
      rfl
    rw [hin]
    cases op with
    | rebootNode n => exact rebooted_between n w
    | _ => exact ⟨le_rfl, between_nil _ _⟩
  | ticked =>
    have hsame : (advanceClock w).nextFiber = w.nextFiber := by
      obtain ⟨clk, _, h | h⟩ := advanceClock_eq w
      · rw [h]
        rfl
      · rw [h]
    exact ⟨hsame.ge, between_nil _ _⟩

/-! ## Conservation -/

/-- The message goes, as it was sent and when it may, to a fiber of its
    destination that is blocked in `Recv`; only that fiber changes. -/
def Delivers (past : List Letter) (w : World P) (m : MsgId) (w' : World P) : Prop :=
  ∃ inf f k, w.inFlight.lookup m = some inf ∧ letterOf m inf ∈ past ∧ inf.dueAt ≤ w.clock ∧
    (∀ lp, w.links.lookup (toLex (inf.src, inf.dst)) = some lp → lp.partitioned = false ∧ ∀ t ∈ lp.clogUntil, t ≤ w.clock) ∧
    nodeUp inf.dst w = true ∧ w.fibers.lookup f = some ⟨inf.dst, .awaitRecv k, .blockedRecv⟩ ∧
    w'.inFlight.lookup m = none ∧ w'.fibers.lookup f = some ⟨inf.dst, .ready (k (inf.src, inf.body)), .runnable⟩ ∧
    ∀ f', f' ≠ f → w'.fibers.lookup f' = w.fibers.lookup f'

/-- A fault that stalls the node until `t`. -/
def Stalls (n : NodeId) (t : SimTime) (op : FaultOp) : Prop := op = .pauseNode n t ∨ op = .diskLatency n t

/-- What holds at the end of a run `ms` from `w₀` to `w`, and of the next move. -/
structure Conserved (w₀ : World P) (ms : List Move) (w : World P) : Prop where
  /-- every fiber's status agrees with its resumption -/
  agrees : ∀ f fb, w.fibers.lookup f = some fb → fb.Agrees
  once : ∀ m, ms.count (.decide (.deliverMsg m)) ≤ 1
  delivers : ∀ m w', moveStep w (.decide (.deliverMsg m)) = some w' → Delivers (sent w₀ ms) w m w'
  /-- a message leaves flight by delivery or a drop -/
  flight : ∀ a w' m inf, moveStep w a = some w' → w.inFlight.lookup m = some inf →
    w'.inFlight.lookup m = some inf ∨ a = .decide (.deliverMsg m) ∨ firedFault w a = some (.dropMessage m)
  /-- only the loss roll keeps a message from entering it -/
  sends : ∀ a w' n w₁ dst body, moveStep w a = some w' → (n, .op w₁ (.send dst body)) ∈ moveActs w a →
    w'.inFlight.lookup w₁.nextMsg =
      if (P.nextDouble w₁.gen).1 < (linkPolicy n dst w₁).drop then none
      else some ⟨n, dst, body, w₁.clock + (sampleLatency (linkPolicy n dst w₁).latency (P.nextDouble w₁.gen).2).1⟩
  /-- a fiber runs only on a node that is up -/
  runs : ∀ f w', moveStep w (.decide (.schedNext f)) = some w' →
    ∃ fb, w.fibers.lookup f = some fb ∧ fb.status = .runnable ∧ nodeUp fb.node w = true
  /-- no fiber of a crashed node runs until a reboot -/
  crashed : ∀ n l₁ l₂, fired w₀ ms = l₁ ++ .crashNode n :: l₂ → FaultOp.rebootNode n ∉ l₂ →
    ∀ f fb, w.fibers.lookup f = some fb → fb.node = n → moveStep w (.decide (.schedNext f)) = none
  /-- nor of a paused one until the pause ends -/
  paused : ∀ n t op l₁ l₂, Stalls n t op → fired w₀ ms = l₁ ++ op :: l₂ → FaultOp.rebootNode n ∉ l₂ → w.clock < t →
    ∀ f fb, w.fibers.lookup f = some fb → fb.node = n → moveStep w (.decide (.schedNext f)) = none
  /-- a killed fiber never runs again -/
  killed : ∀ f ∈ killed w₀ ms, moveStep w (.decide (.schedNext f)) = none
  sentIds : ((sent w₀ ms).map Prod.fst).Nodup
  startedIds : (started w₀ ms).Nodup ∧ ∀ f ∈ started w₀ ms, w₀.fibers.lookup f = none
  /-- no error from the variables of one's own incarnation -/
  vars : ∀ d ∈ runnable w, Own (varEvents w₀ (ms ++ [.decide d])) → ∃ r, step w d = .ok r

theorem delivers_move (past : List Letter) {m : MsgId} (hg : Good w)
    (h : moveStep w (.decide (.deliverMsg m)) = some w')
    (hpast : ∀ inf, w.inFlight.lookup m = some inf → letterOf m inf ∈ past) : Delivers past w m w' := by
  cases moved hg h with
  | @delivered m inf f k hm hdue hlink hup hf =>
    refine ⟨inf, f, k, hm, hpast inf hm, hdue, fun lp hlp => ?_, hup, hf, (lookup_filter_ne m m _).trans (if_pos rfl),
      (lookup_insert _ _ _ _).trans (if_pos rfl), fun f' hf' => (lookup_insert _ _ _ _).trans (if_neg hf')⟩
    rw [linkLive, hlp] at hlink
    simp only [Bool.and_eq_true, Bool.not_eq_true'] at hlink
    refine ⟨hlink.1, fun t ht => ?_⟩
    have hu : lp.clogUntil = some t := ht
    have := hlink.2
    rw [hu] at this
    exact of_decide_eq_true this

/-- The messages in flight were sent. -/
theorem flight_sent {w₀ w : World P} (hg₀ : Good w₀) (hempty : w₀.inFlight = [])
    (hrun : run moveStep w₀ ms = some w) {m : MsgId} {inf : InFlight} (hm : w.inFlight.lookup m = some inf) :
    letterOf m inf ∈ sent w₀ ms := by
  induction ms using List.reverseRecOn generalizing w with
  | nil =>
    cases hrun
    rw [hempty] at hm
    cases hm
  | append_singleton ms a ih =>
    obtain ⟨w₁, hrun₁, ha⟩ := run_append.1 hrun
    obtain ⟨w₂, ha, hnil⟩ := run_cons.1 ha
    cases hnil
    rw [sent, trace_snoc hrun₁, List.flatMap_append, List.flatMap_singleton]
    rcases sent_move (good_run hg₀ hrun₁) ha hm with hold | hnew
    · exact List.mem_append_left _ (ih hrun₁ hold)
    · exact List.mem_append_right _ hnew

/-- A message is delivered once: after its delivery its id is behind the counter
    and not in flight. -/
theorem delivered_once {w₀ w : World P} (hg₀ : Good w₀) (hrun : run moveStep w₀ ms = some w) (m : MsgId) :
    ms.count (.decide (.deliverMsg m)) = 0 ∨
      (ms.count (.decide (.deliverMsg m)) = 1 ∧ w.inFlight.lookup m = none ∧ m < w.nextMsg) := by
  induction ms using List.reverseRecOn generalizing w with
  | nil => exact Or.inl rfl
  | append_singleton ms a ih =>
    obtain ⟨w₁, hrun₁, ha⟩ := run_append.1 hrun
    obtain ⟨w₂, ha, hnil⟩ := run_cons.1 ha
    cases hnil
    have hg := good_run hg₀ hrun₁
    rw [List.count_append]
    by_cases hd : a = .decide (.deliverMsg m)
    · subst hd
      obtain ⟨inf, f, k, hm, _, _, _, _, _, hgone, _⟩ :=
        delivers_move [letterOf m ((w₁.inFlight.lookup m).getD ⟨0, 0, [], 0⟩)] hg ha
          fun inf hinf => by rw [hinf]; exact List.mem_singleton.2 rfl
      rcases ih hrun₁ with h0 | ⟨_, hnone, _⟩
      · rw [h0]
        exact Or.inr ⟨by simp, hgone, (hg.msgIds m inf hm).trans_le (sent_between hg ha).1⟩
      · rw [hm] at hnone
        cases hnone
    · have hcount : List.count (.decide (.deliverMsg m)) [a] = 0 := List.count_eq_zero.2 (by simpa using Ne.symm hd)
      rw [hcount]
      refine (ih hrun₁).imp id fun ⟨h1, hnone, hlt⟩ => ⟨h1, ?_, hlt.trans_le (sent_between hg ha).1⟩
      cases hm : w.inFlight.lookup m with
      | none => rfl
      | some inf =>
        rcases sent_move hg ha hm with hold | hnew
        · rw [hold] at hnone
          cases hnone
        · have hmem := List.mem_map_of_mem (f := Prod.fst) hnew
          exact absurd ((sent_between hg ha).2.2 m hmem).1 (not_le.2 hlt)

/-- A fiber of a node that is not up does not run. -/
theorem not_sched {w : World P} (hg : Good w) {f : FiberId} {fb : Fiber P} (hf : w.fibers.lookup f = some fb)
    (h : ¬ (fb.status = .runnable ∧ nodeUp fb.node w = true)) : moveStep w (.decide (.schedNext f)) = none := by
  cases hm : moveStep w (.decide (.schedNext f)) with
  | none => rfl
  | some w' =>
    cases moved_sched hg hm with
    | ran hf' hs hr hup hrun =>
      rw [hf] at hf'
      cases hf'
      exact absurd ⟨hs, hup⟩ h

theorem sends_move {a : Move} (hg : Good w) (h : moveStep w a = some w') {n dst : NodeId} {w₁ : World P}
    {body : ByteString} (hmem : (n, .op w₁ (.send dst body)) ∈ moveActs w a) :
    w'.inFlight.lookup w₁.nextMsg =
      if (P.nextDouble w₁.gen).1 < (linkPolicy n dst w₁).drop then none
      else some ⟨n, dst, body, w₁.clock + (sampleLatency (linkPolicy n dst w₁).latency (P.nextDouble w₁.gen).2).1⟩ := by
  cases moved hg h with
  | @ran f fb prog w₂ evs out hf hs hr hup hrun =>
    rw [moveActs_ran hf hs hr] at hmem
    obtain ⟨act, hact, he⟩ := List.mem_map.1 hmem
    cases he
    obtain ⟨hbefore, r, w₃, evs₃, hp, hafter⟩ := acts_performed hrun hact
    have hw₃ : w₃ = (doSend fb.node dst body w₁).1 := by
      cases hp
      rfl
    subst hw₃
    have hkeep := hafter.msgOld w₁.nextMsg (by rw [doSend_nextMsg]; exact Int.lt_succ _)
    have hnew : w₁.inFlight.lookup w₁.nextMsg = none := by
      cases hm : w₁.inFlight.lookup w₁.nextMsg with
      | none => rfl
      | some inf => exact absurd ((good_ran hg hbefore).msgIds _ inf hm) (lt_irrefl _)
    refine hkeep.trans ?_
    rw [doSend_inFlight]
    by_cases hroll : (P.nextDouble w₁.gen).1 < (linkPolicy fb.node dst w₁).drop
    · rw [if_neg fun hc => hc.2 hroll, if_pos hroll, hnew]
    · rw [if_pos ⟨rfl, hroll⟩, if_neg hroll]
  | delivered => cases hmem
  | fired => cases hmem
  | ticked => cases hmem

/-- Node 0 sends a byte to node 1, which waits for it. -/
def ping : Scenario counterPlatform where
  nemesis := ⟨0, [], 0⟩
  links := []
  nodes := [(0, .bind (.send 1 [7]) fun _ => .pure), (1, .recv fun _ => .pure)]
  invariant := fun _ => true

def pingMoves : List Move := [.decide (.schedNext 1), .decide (.schedNext 0), .decide (.deliverMsg 0), .decide (.schedNext 1)]

end Wireform.Sim

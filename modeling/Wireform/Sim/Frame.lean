/-
  What a fiber's step changes, and the invariant of the reachable worlds.

  * `Ran node w w'`: what the inline operations of a fiber on `node` leave, from
    `w` to `w'` (`runReady_ran`);
  * `Good w`: the maps are ordered, the counters are above the ids in use, and
    every fiber's status agrees with its resumption;
  * `moveStep`: one move of a driver, a legal decision or a clock advance;
    `good_move`: it keeps the invariant.
-/
import Wireform.Sim.Interp
import Wireform.Transition

namespace Wireform.Sim

open AssocMap

variable {P : Platform}

/-! ## The state of a node -/

/-- What decides whether a node makes progress. -/
def liveness (n : NodeId) (w : World P) : Option (Bool × Option SimTime) :=
  (w.nodes.lookup n).map fun ns => (ns.alive, ns.pausedUntil)

variable {w : World P} {node : NodeId} {n : NodeId} {fb : Fiber P} {f : FiberId}

theorem nodeUp_iff :
    nodeUp n w = true ↔ ∃ p, liveness n w = some (true, p) ∧ ∀ t ∈ p, t ≤ w.clock := by
  unfold nodeUp liveness
  cases w.nodes.lookup n with
  | none => simp
  | some ns => cases h : ns.pausedUntil <;> simp [h]

theorem nodeOf_of_lookup {ns : NodeState P} (h : w.nodes.lookup n = some ns) :
    nodeOf n w = ns := by
  rw [nodeOf, h]
  rfl

@[simp] theorem lookup_setNode (n n' : NodeId) (ns : NodeState P) (w : World P) :
    (setNode n ns w).nodes.lookup n' = if n' = n then some ns else w.nodes.lookup n' := lookup_insert n n' ns w.nodes

theorem nodeOf_setNode (n n' : NodeId) (ns : NodeState P) (w : World P) :
    nodeOf n' (setNode n ns w) = if n' = n then ns else nodeOf n' w := by
  rw [nodeOf, lookup_setNode]
  split_ifs
  · rfl
  · rfl

theorem liveness_setNode (n n' : NodeId) (ns : NodeState P) (w : World P) :
    liveness n' (setNode n ns w) = if n' = n then some (ns.alive, ns.pausedUntil) else liveness n' w := by
  rw [liveness, lookup_setNode]
  split_ifs
  · rfl
  · rfl

theorem liveness_of_lookup (h : (liveness n w).isSome) :
    liveness n w = some ((nodeOf n w).alive, (nodeOf n w).pausedUntil) := by
  unfold liveness at h ⊢
  cases hn : w.nodes.lookup n with
  | none => rw [hn] at h; cases h
  | some ns => rw [nodeOf_of_lookup hn]; rfl

/-! ## A fiber's step -/

/-- A fiber started on a node. -/
def Fiber.Started (node : NodeId) (fb : Fiber P) : Prop :=
  fb.node = node ∧ fb.status = .runnable ∧ ∃ p, fb.resume = .ready p

/-- What running on `node` leaves of the world. -/
structure Ran (node : NodeId) (w w' : World P) : Prop where
  clock : w'.clock = w.clock
  links : w'.links = w.links
  nemesis : w'.nemesis = w.nemesis
  programs : w'.nodePrograms = w.nodePrograms
  nodes : Ascending w.nodes → Ascending w'.nodes
  liveness : (liveness node w).isSome → ∀ n, liveness n w' = liveness n w
  other : ∀ n, n ≠ node → nodeOf n w' = nodeOf n w
  fibers : Ascending w.fibers → Ascending w'.fibers
  nextFiber : w.nextFiber ≤ w'.nextFiber
  fiberOld : ∀ f, f < w.nextFiber → w'.fibers.lookup f = w.fibers.lookup f
  fiberNew : ∀ f fb, w'.fibers.lookup f = some fb →
    w.fibers.lookup f = some fb ∨ (f < w'.nextFiber ∧ fb.Started node)
  inFlight : Ascending w.inFlight → Ascending w'.inFlight
  nextMsg : w.nextMsg ≤ w'.nextMsg
  msgOld : ∀ m, m < w.nextMsg → w'.inFlight.lookup m = w.inFlight.lookup m
  msgNew : ∀ m inf, w'.inFlight.lookup m = some inf → w.inFlight.lookup m = some inf ∨ m < w'.nextMsg

theorem Ran.refl (node : NodeId) (w : World P) : Ran node w w where
  clock := rfl
  links := rfl
  nemesis := rfl
  programs := rfl
  nodes := id
  liveness := fun _ _ => rfl
  other := fun _ _ => rfl
  fibers := id
  nextFiber := le_rfl
  fiberOld := fun _ _ => rfl
  fiberNew := fun _ _ => Or.inl
  inFlight := id
  nextMsg := le_rfl
  msgOld := fun _ _ => rfl
  msgNew := fun _ _ => Or.inl

theorem Ran.trans {w₁ w₂ w₃ : World P} (h : Ran node w₁ w₂) (h' : Ran node w₂ w₃) : Ran node w₁ w₃ where
  clock := h'.clock.trans h.clock
  links := h'.links.trans h.links
  nemesis := h'.nemesis.trans h.nemesis
  programs := h'.programs.trans h.programs
  nodes := h'.nodes ∘ h.nodes
  liveness := fun hs n => (h'.liveness (by rw [h.liveness hs]; exact hs) n).trans (h.liveness hs n)
  other := fun n hn => (h'.other n hn).trans (h.other n hn)
  fibers := h'.fibers ∘ h.fibers
  nextFiber := h.nextFiber.trans h'.nextFiber
  fiberOld := fun f hf => (h'.fiberOld f (hf.trans_le h.nextFiber)).trans (h.fiberOld f hf)
  fiberNew := fun f fb hfb => by
    rcases h'.fiberNew f fb hfb with hfb | hfb
    · exact (h.fiberNew f fb hfb).imp_right fun hnew => ⟨hnew.1.trans_le h'.nextFiber, hnew.2⟩
    · exact Or.inr hfb
  inFlight := h'.inFlight ∘ h.inFlight
  nextMsg := h.nextMsg.trans h'.nextMsg
  msgOld := fun m hm => (h'.msgOld m (hm.trans_le h.nextMsg)).trans (h.msgOld m hm)
  msgNew := fun m inf hm => by
    rcases h'.msgNew m inf hm with hm | hm
    · exact (h.msgNew m inf hm).imp_right fun hnew => hnew.trans_le h'.nextMsg
    · exact Or.inr hm

/-- The draws and the memory of the sites are outside the frame. -/
theorem Ran.draw (w : World P) (g : P.Gen) (b : AssocMap SiteId Bool) :
    Ran node w { w with gen := g, buggify := b } :=
  { Ran.refl node w with }

/-- A node's own state may change, but not its liveness. -/
theorem Ran.setNode {node : NodeId} {w : World P} {ns : NodeState P} (halive : ns.alive = (nodeOf node w).alive)
    (hpaused : ns.pausedUntil = (nodeOf node w).pausedUntil) : Ran node w (setNode node ns w) :=
  { Ran.refl node w with
    nodes := fun h => h.insert node ns
    liveness := fun hs n => by
      rw [liveness_setNode]
      split_ifs with hn
      · rw [hn, liveness_of_lookup hs, halive, hpaused]
      · rfl
    other := fun n hn => by rw [nodeOf_setNode, if_neg hn] }

theorem spawn_ran (node : NodeId) (p : Prog P) (w : World P) : Ran node w (spawn node p w).2 :=
  { Ran.refl node w with
    fibers := fun h => h.insert _ _
    nextFiber := Int.le.intro 1 rfl
    fiberOld := fun f hf => by
      show lookup f (AssocMap.insert _ _ _) = _
      rw [lookup_insert, if_neg hf.ne]
    fiberNew := fun f fb hfb => by
      replace hfb : lookup f (AssocMap.insert _ _ _) = some fb := hfb
      rw [lookup_insert] at hfb
      split_ifs at hfb with hf
      · cases hfb
        exact Or.inr ⟨hf ▸ Int.lt_succ _, rfl, rfl, p, rfl⟩
      · exact Or.inl hfb }

theorem doSend_ran (node dst : NodeId) (body : ByteString) (w : World P) : Ran node w (doSend node dst body w).1 := by
  unfold doSend
  dsimp only
  split_ifs
  · exact { Ran.refl node w with
      nextMsg := Int.le.intro 1 rfl
      msgNew := fun _ _ => Or.inl }
  · exact { Ran.refl node w with
      inFlight := fun h => h.insert _ _
      nextMsg := Int.le.intro 1 rfl
      msgOld := fun m hm => by
        show lookup m (AssocMap.insert _ _ _) = _
        rw [lookup_insert, if_neg hm.ne]
      msgNew := fun m inf h => by
        replace h : lookup m (AssocMap.insert _ _ _) = some inf := h
        rw [lookup_insert] at h
        split_ifs at h with hm
        · exact Or.inr (hm ▸ Int.lt_succ _)
        · exact Or.inl h }

/-- What an inline operation can do: send, draw, or change the state of its own
    node but for the liveness. -/
inductive Performed (node : NodeId) (w : World P) : SimOp P → World P → Prop
  | sent (dst : NodeId) (body : ByteString) : Performed node w (.send dst body) (doSend node dst body w).1
  | drew {op : SimOp P} (hop : ∀ dst body, op ≠ .send dst body) (g : P.Gen) (b : AssocMap SiteId Bool) :
      Performed node w op { w with gen := g, buggify := b }
  | stored {op : SimOp P} (hop : ∀ dst body, op ≠ .send dst body) (g : P.Gen) {ns : NodeState P}
      (halive : ns.alive = (nodeOf node w).alive) (hpaused : ns.pausedUntil = (nodeOf node w).pausedUntil) :
      Performed node w op (setNode node ns { w with gen := g })

theorem performed_storeWrite (node : NodeId) (key : Key) (body : ByteString) (w : World P) :
    Performed node w (.storeWrite key body) (doStoreWrite node key body w) := by
  unfold doStoreWrite
  dsimp only
  split_ifs
  · exact .stored (by simp) w.gen rfl rfl
  · exact .stored (by simp) _ rfl rfl
  · exact .stored (by simp) w.gen rfl rfl

theorem performed_buggify (node : NodeId) (s : SiteId) (p : Float) (w : World P) :
    Performed node w (.buggify s p) (doBuggify s p w).2 := by
  unfold doBuggify
  split
  · exact .drew (by simp) w.gen w.buggify
  · split
    · exact .drew (by simp) w.gen w.buggify
    · exact .drew (by simp) _ _

/-- **One inline operation.** -/
theorem performed {w w' : World P} {op : SimOp P} {r : op.Result} {evs : List SimEvent}
    (h : perform node w op = .ok (r, w', evs)) : Performed node w op w' := by
  cases op with
  | getTime | whoAmI | storeRead | cover | observe | assertOp | logMsg =>
    cases h
    exact .drew (by simp) _ _
  | drawWord =>
    cases h
    exact .drew (by simp) _ w.buggify
  | send dst body =>
    cases h
    exact .sent dst body
  | newVar τ a | writeVar τ v a | fsync =>
    cases h
    exact .stored (by simp) w.gen rfl rfl
  | readVar τ v =>
    rw [perform] at h
    cases hr : doReadVar node τ v w with
    | error e => rw [hr] at h; cases h
    | ok a => rw [hr] at h; cases h; exact .drew (by simp) _ _
  | modifyVar τ σ v f =>
    rw [perform] at h
    cases hr : doReadVar node τ v w with
    | error e => rw [hr] at h; cases h
    | ok a => rw [hr] at h; cases h; exact .stored (by simp) w.gen rfl rfl
  | storeWrite key body =>
    cases h
    exact performed_storeWrite node key body w
  | buggify s p =>
    cases h
    exact performed_buggify node s p w

theorem Performed.ran {w w' : World P} {op : SimOp P} (h : Performed node w op w') : Ran node w w' := by
  cases h with
  | sent dst body => exact doSend_ran node dst body w
  | drew hop g b => exact Ran.draw w g b
  | stored hop g halive hpaused => exact (Ran.draw w g w.buggify).trans (Ran.setNode halive hpaused)

theorem goP_ran {prog : Prog P} : ∀ {evAcc : List SimEvent} {w w' : World P} {evs : List SimEvent}
    {out : StepOut P}, runReady.goP node evAcc w prog = .ok (w', evs, out) → Ran node w w' := by
  induction prog with
  | pure | yield | delay | recv =>
    intro evAcc w w' evs out h
    cases h
    exact Ran.refl node w
  | fork p k _ ih =>
    intro evAcc w w' evs out h
    exact (spawn_ran node p w).trans (ih _ h)
  | bind op k ih =>
    intro evAcc w w' evs out h
    unfold runReady.goP at h
    split at h
    · cases h
    · rename_i r w₁ evs₁ hop
      exact (performed hop).ran.trans (ih r h)

/-- **A fiber's step stays in its frame.** -/
theorem runReady_ran {prog : Prog P} {w w' : World P} {evs : List SimEvent} {out : StepOut P}
    (h : runReady node w prog = .ok (w', evs, out)) : Ran node w w' := goP_ran h

/-! ## The invariant -/

/-- A fiber's status agrees with its resumption. -/
def Fiber.Agrees (fb : Fiber P) : Prop :=
  match fb.status with
  | .runnable => ∃ p, fb.resume = .ready p
  | .blockedRecv => ∃ k, fb.resume = .awaitRecv k
  | .blockedTimer t => ∃ p, fb.resume = .awaitTimer t p
  | .dead => fb.resume = .ready .pure

attribute [grind =] Fiber.Agrees

theorem Fiber.Started.agrees (h : fb.Started node) : fb.Agrees := by
  unfold Fiber.Agrees
  rw [h.2.1]
  exact h.2.2

theorem Fiber.agrees_after (fb : Fiber P) (out : StepOut P) : (fb.after out).Agrees := by
  cases out with
  | done => exact rfl
  | recv k => exact ⟨k, rfl⟩
  | timer t p => exact ⟨p, rfl⟩
  | yield p => exact ⟨p, rfl⟩

/-- The invariant of the worlds a run goes through. -/
structure Good (w : World P) : Prop where
  fibers : Ascending w.fibers
  inFlight : Ascending w.inFlight
  nodes : Ascending w.nodes
  fiberIds : ∀ f fb, w.fibers.lookup f = some fb → f < w.nextFiber
  msgIds : ∀ m inf, w.inFlight.lookup m = some inf → m < w.nextMsg
  agrees : ∀ f fb, w.fibers.lookup f = some fb → fb.Agrees

/-- The map over the values of a map. -/
theorem ascending_map {κ α β : Type} [LinearOrder κ] {m : AssocMap κ α} (h : Ascending m) (f : α → β) :
    Ascending (m.map fun e => (e.1, f e.2)) :=
  List.pairwise_map.2 (h.imp fun {_ _} hlt => hlt)

theorem ascending_filter {κ α : Type} [LinearOrder κ] {m : AssocMap κ α} (h : Ascending m) (p : κ × α → Bool) :
    Ascending (m.filter p) := List.Pairwise.filter p h

theorem good_ran {w w' : World P} (hg : Good w) (h : Ran node w w') : Good w' where
  fibers := h.fibers hg.fibers
  inFlight := h.inFlight hg.inFlight
  nodes := h.nodes hg.nodes
  fiberIds := fun f fb hf => by
    rcases h.fiberNew f fb hf with hold | hnew
    · exact (hg.fiberIds f fb hold).trans_le h.nextFiber
    · exact hnew.1
  msgIds := fun m inf hm => by
    rcases h.msgNew m inf hm with hold | hnew
    · exact (hg.msgIds m inf hold).trans_le h.nextMsg
    · exact hnew
  agrees := fun f fb hf => by
    rcases h.fiberNew f fb hf with hold | hnew
    · exact hg.agrees f fb hold
    · exact hnew.2.agrees

/-- A fiber replaced by one that agrees. -/
theorem Good.setFiber (hg : Good w) (hf : f < w.nextFiber)
    (hfb : fb.Agrees) (s : Int) : Good { w with fibers := AssocMap.insert f fb w.fibers, seqCtr := s } :=
  { hg with
    fibers := hg.fibers.insert f fb
    fiberIds := fun f' fb' h => by
      rw [lookup_insert] at h
      split_ifs at h with he
      · exact he ▸ hf
      · exact hg.fiberIds f' fb' h
    agrees := fun f' fb' h => by
      rw [lookup_insert] at h
      split_ifs at h with he
      · cases h; exact hfb
      · exact hg.agrees f' fb' h }

theorem Good.dropMsg (hg : Good w) (m : MsgId) :
    Good { w with inFlight := w.inFlight.filter fun e => e.1 ≠ m } :=
  { hg with
    inFlight := ascending_filter hg.inFlight _
    msgIds := fun m' inf h => by
      rw [lookup_filter_ne] at h
      split_ifs at h
      exact hg.msgIds m' inf h }

/-- A map over the fibers that keeps the agreement. -/
theorem Good.mapFibers (hg : Good w) {φ : Fiber P → Fiber P}
    (hφ : ∀ fb : Fiber P, fb.Agrees → (φ fb).Agrees) {nodes : AssocMap NodeId (NodeState P)}
    (hnodes : Ascending nodes) : Good { w with fibers := w.fibers.map fun e => (e.1, φ e.2), nodes := nodes } :=
  { hg with
    fibers := ascending_map hg.fibers φ
    nodes := hnodes
    fiberIds := fun f fb h => by
      replace h : lookup f (w.fibers.map fun e => (e.1, φ e.2)) = some fb := h
      rw [lookup_map, Option.map_eq_some_iff] at h
      obtain ⟨fb', hfb', rfl⟩ := h
      exact hg.fiberIds f fb' hfb'
    agrees := fun f fb h => by
      replace h : lookup f (w.fibers.map fun e => (e.1, φ e.2)) = some fb := h
      rw [lookup_map, Option.map_eq_some_iff] at h
      obtain ⟨fb', hfb', rfl⟩ := h
      exact hφ fb' (hg.agrees f fb' hfb') }

theorem agrees_killFiber (h : fb.Agrees) : (killFiber n fb).Agrees := by
  unfold killFiber
  split_ifs
  · exact rfl
  · exact h

theorem agrees_wakeFib {clk : SimTime} (h : fb.Agrees) : (wakeFib clk fb).Agrees := by
  unfold wakeFib
  split
  · split_ifs
    · exact ⟨_, rfl⟩
    · exact h
  · exact h

/-- A reboot leaves the messages. -/
theorem rebootNode_messages (n : NodeId) (w : World P) :
    (rebootNode n w).inFlight = w.inFlight ∧ (rebootNode n w).nextMsg = w.nextMsg := by
  unfold rebootNode
  split <;> exact ⟨rfl, rfl⟩

/-- An advance of the clock wakes the fibers and the nodes. -/
theorem advanceClock_eq (w : World P) : ∃ clk, w.clock ≤ clk ∧
    (advanceClock w = wakeDue { w with clock := clk } ∨ advanceClock w = w) := by
  unfold advanceClock
  split_ifs
  · exact ⟨w.clock, UInt64.le_refl _, Or.inl rfl⟩
  · split
    · exact ⟨w.clock, UInt64.le_refl _, Or.inr rfl⟩
    · rename_i t ht
      have hmem := List.min?_mem ht
      rw [List.mem_filter, decide_eq_true_eq] at hmem
      exact ⟨t, UInt64.le_of_lt hmem.2, Or.inl rfl⟩

theorem good_crash (hg : Good w) (n : NodeId) : Good (crashNode n w) :=
  hg.mapFibers (fun _ h => agrees_killFiber h) (hg.nodes.adjust clearVol n)

theorem good_nodes (hg : Good w) {nodes : AssocMap NodeId (NodeState P)} (h : Ascending nodes) :
    Good { w with nodes := nodes } := { hg with nodes := h }

theorem good_spawned (hg : Good w) (n : NodeId) (p : Prog P) : Good
    { w with
      fibers := AssocMap.insert w.nextFiber ⟨n, .ready p, .runnable⟩ w.fibers
      nextFiber := w.nextFiber + 1 } := good_ran hg (spawn_ran n p w)

theorem good_reboot (hg : Good w) (n : NodeId) : Good (rebootNode n w) := by
  unfold rebootNode
  have hset : ∀ ns, Good (setNode n ns w) := fun ns => good_nodes hg (hg.nodes.insert n ns)
  split
  · exact hset _
  · exact good_spawned (hset _) n _

theorem good_fault (hg : Good w) (op : FaultOp) : Good (applyFault op w).1 := by
  have hmod : ∀ n f, Good (modNode n f w) := fun n f => good_nodes hg (hg.nodes.adjust f n)
  cases op with
  | dropMessage m => exact hg.dropMsg m
  | partition | heal | clog => exact { hg with }
  | crashNode n => exact good_crash hg n
  | rebootNode n => exact good_reboot hg n
  | pauseNode | clockSkew | corruptWrite | tearWrite | diskLatency => exact hmod _ _

theorem good_wakeDue (hg : Good w) : Good (wakeDue w) :=
  hg.mapFibers (fun _ h => agrees_wakeFib h) (ascending_map hg.nodes _)

theorem good_advanceClock (hg : Good w) : Good (advanceClock w) := by
  unfold advanceClock
  split_ifs
  · exact good_wakeDue hg
  · split
    · exact hg
    · exact good_wakeDue { hg with }

/-! ## Moves -/

/-- What `pickRecvFiber` finds. -/
theorem pickRecvFiber_spec (hg : Good w)
    {k : NodeId × ByteString → Prog P} (h : pickRecvFiber n w = some (f, k)) :
    w.fibers.lookup f = some ⟨n, .awaitRecv k, .blockedRecv⟩ := by
  obtain ⟨⟨f', n', res, st⟩, he, hpick⟩ := List.exists_of_findSome?_eq_some h
  split_ifs at hpick with hcond
  obtain ⟨rfl, rfl⟩ := hcond
  cases res with
  | awaitRecv k' =>
    cases hpick
    exact (hg.fibers.mem_iff _ _).1 he
  | ready p => cases hpick
  | awaitTimer t p => cases hpick

/-- A node with a blocked receiver has one to pick. -/
theorem exists_pickRecvFiber (hg : Good w) (h : blockedRecvOn n w = true) :
    ∃ f k, pickRecvFiber n w = some (f, k) := by
  obtain ⟨⟨f, fb⟩, he, hb⟩ := List.any_eq_true.1 h
  simp only [Bool.and_eq_true, decide_eq_true_eq] at hb
  have hagrees := hg.agrees f fb ((hg.fibers.mem_iff f fb).1 he)
  unfold Fiber.Agrees at hagrees
  rw [hb.2] at hagrees
  obtain ⟨k, hk⟩ := hagrees
  cases hpick : pickRecvFiber n w with
  | some e => exact ⟨e.1, e.2, rfl⟩
  | none =>
    have := List.findSome?_eq_none_iff.1 hpick (f, fb) he
    rw [if_pos hb] at this
    dsimp only at this
    rw [hk] at this
    cases this

/-- The fault that a move fires. -/
def firedFault (w : World P) : Move → Option FaultOp
  | .decide (.fireFault i) => if i < 0 then none else (availableFaults w.nemesis w)[i.toNat]?
  | .decide (.schedNext _) | .decide (.deliverMsg _) | .tick => none

/-- One move of a driver: a legal decision, or an advance of the clock. -/
def moveStep (w : World P) : Move → Option (World P)
  | .decide d => if (runnable w).contains d then (step w d).toOption.map StepResult.world else none
  | .tick => some (advanceClock w)

/-- A decision that is made is legal and does not raise an error. -/
theorem moveStep_decide {w w' : World P} {d : Decision} :
    moveStep w (.decide d) = some w' ↔ d ∈ runnable w ∧ ∃ evs, step w d = .ok ⟨w', evs⟩ := by
  rw [moveStep]
  split_ifs with hd
  · rw [List.contains_iff_mem] at hd
    cases hstep : step w d with
    | error e => simp [Except.toOption, hd]
    | ok r =>
      obtain ⟨wr, evs⟩ := r
      simp [Except.toOption, hd]
  · rw [List.contains_iff_mem] at hd
    simp [hd]

theorem sched_mem_runnable :
    .schedNext f ∈ runnable w ↔ ∃ fb, (f, fb) ∈ w.fibers ∧ fb.status = .runnable ∧ nodeUp fb.node w = true := by
  simp [runnable]

theorem deliver_mem_runnable {m : MsgId} :
    .deliverMsg m ∈ runnable w ↔ (∃ inf, (m, inf) ∈ w.inFlight) ∧ deliverable m w = true := by
  simp [runnable]

theorem fire_mem_runnable {i : Int} :
    .fireFault i ∈ runnable w ↔ 0 ≤ i ∧ i < (availableFaults w.nemesis w).length := by
  simp only [runnable, List.mem_append, List.mem_map, reduceCtorEq, and_false, exists_false, false_or, List.mem_range,
    Decision.fireFault.injEq]
  constructor
  · rintro ⟨n, hn, rfl⟩
    omega
  · rintro ⟨h0, hlt⟩
    exact ⟨i.toNat, by omega, by omega⟩

/-- What one move can do. -/
inductive Moved (w : World P) : Move → World P → Prop
  | ran {f : FiberId} {fb : Fiber P} {prog : Prog P} {w₁ : World P} {evs : List SimEvent} {out : StepOut P} (hf : w.fibers.lookup f = some fb)
      (hs : fb.status = .runnable) (hr : fb.resume = .ready prog) (hup : nodeUp fb.node w = true)
      (hrun : runReady fb.node w prog = .ok (w₁, evs, out)) :
      Moved w (.decide (.schedNext f))
        { w₁ with fibers := AssocMap.insert f (fb.after out) w₁.fibers, seqCtr := w₁.seqCtr + 1 }
  | delivered {m : MsgId} {inf : InFlight} {f : FiberId} {k : NodeId × ByteString → Prog P}
      (hm : w.inFlight.lookup m = some inf) (hdue : inf.dueAt ≤ w.clock) (hlink : linkLive inf.src inf.dst w = true)
      (hup : nodeUp inf.dst w = true) (hf : w.fibers.lookup f = some ⟨inf.dst, .awaitRecv k, .blockedRecv⟩) :
      Moved w (.decide (.deliverMsg m))
        { w with
          inFlight := w.inFlight.filter fun e => e.1 ≠ m
          fibers := AssocMap.insert f ⟨inf.dst, .ready (k (inf.src, inf.body)), .runnable⟩ w.fibers
          seqCtr := w.seqCtr + 1 }
  | fired {i : Int} {op : FaultOp} (hop : firedFault w (.decide (.fireFault i)) = some op) :
      Moved w (.decide (.fireFault i))
        { (applyFault op w).1 with faultsFired := w.faultsFired + 1, seqCtr := w.seqCtr + 1 }
  | ticked : Moved w .tick (advanceClock w)

theorem moved_sched {w w' : World P} (hg : Good w)
    (h : moveStep w (.decide (.schedNext f)) = some w') : Moved w (.decide (.schedNext f)) w' := by
  obtain ⟨hd, evs, hstep⟩ := moveStep_decide.1 h
  obtain ⟨fb, hmem, hs, hup⟩ := sched_mem_runnable.1 hd
  have hf := (hg.fibers.mem_iff f fb).1 hmem
  have hagrees := hg.agrees f fb hf
  unfold Fiber.Agrees at hagrees
  rw [hs] at hagrees
  obtain ⟨prog, hr⟩ := hagrees
  simp only [step, hf, hs, hr, if_true] at hstep
  split at hstep
  · cases hstep
  · rename_i w₁ evs₁ out hrun
    cases hstep
    exact .ran hf hs hr hup hrun

theorem moved_deliver {w w' : World P} {m : MsgId} (hg : Good w)
    (h : moveStep w (.decide (.deliverMsg m)) = some w') : Moved w (.decide (.deliverMsg m)) w' := by
  obtain ⟨hd, evs, hstep⟩ := moveStep_decide.1 h
  obtain ⟨⟨inf, hmem⟩, hdel⟩ := deliver_mem_runnable.1 hd
  have hm := (hg.inFlight.mem_iff m inf).1 hmem
  simp only [deliverable, hm, Bool.and_eq_true, decide_eq_true_eq] at hdel
  obtain ⟨⟨⟨hdue, hlink⟩, hup⟩, hblocked⟩ := hdel
  obtain ⟨f, k, hpick⟩ := exists_pickRecvFiber hg hblocked
  have halive : (nodeOf inf.dst w).alive = true := by
    obtain ⟨p, hp, _⟩ := nodeUp_iff.1 hup
    have := liveness_of_lookup (by rw [hp]; rfl : (liveness inf.dst w).isSome)
    rw [hp] at this
    exact (congrArg Prod.fst (Option.some.inj this)).symm
  simp only [step, hm, halive, hpick, Bool.true_eq_false, if_false] at hstep
  cases hstep
  exact .delivered hm hdue hlink hup (pickRecvFiber_spec hg hpick)

theorem moved_fire {w w' : World P} {i : Int} (h : moveStep w (.decide (.fireFault i)) = some w') :
    Moved w (.decide (.fireFault i)) w' := by
  obtain ⟨hd, evs, hstep⟩ := moveStep_decide.1 h
  obtain ⟨h0, hlt⟩ := fire_mem_runnable.1 hd
  have hin : i.toNat < (availableFaults w.nemesis w).length := by omega
  obtain ⟨op, hget⟩ : ∃ op, (availableFaults w.nemesis w)[i.toNat]? = some op := ⟨_, List.getElem?_eq_getElem hin⟩
  have hop : firedFault w (.decide (.fireFault i)) = some op := by
    rw [firedFault, if_neg (by omega), hget]
  simp only [step, if_neg (show ¬ i < 0 by omega), hget] at hstep
  cases hstep
  exact .fired hop

/-- **The four kinds of moves.** -/
theorem moved {w w' : World P} {m : Move} (hg : Good w) (h : moveStep w m = some w') : Moved w m w' := by
  cases m with
  | tick =>
    cases h
    exact .ticked
  | decide d =>
    cases d with
    | schedNext f => exact moved_sched hg h
    | deliverMsg m => exact moved_deliver hg h
    | fireFault i => exact moved_fire h

/-- **The invariant is kept by every move.** -/
theorem good_move {w w' : World P} (hg : Good w) {m : Move} (h : moveStep w m = some w') : Good w' := by
  cases moved hg h with
  | ran hf hs hr hup hrun =>
    have hran := runReady_ran hrun
    exact (good_ran hg hran).setFiber ((hg.fiberIds _ _ hf).trans_le hran.nextFiber) (Fiber.agrees_after _ _) _
  | @delivered m inf f k hm hdue hlink hup hf =>
    have hagrees : Fiber.Agrees ⟨inf.dst, .ready (k (inf.src, inf.body)), .runnable⟩ := ⟨_, rfl⟩
    exact (hg.dropMsg m).setFiber (hg.fiberIds _ _ hf) hagrees _
  | fired hop => exact { good_fault hg _ with }
  | ticked => exact good_advanceClock hg

theorem good_start (seed : Seed) (buggify : AssocMap SiteId Bool) (scen : Scenario P) :
    Good (startWorld seed buggify scen) where
  fibers := ascending_fromList _
  inFlight := List.Pairwise.nil
  nodes := ascending_fromList _
  fiberIds := fun f fb h => by
    obtain ⟨e, he, heq⟩ := List.mem_map.1 (mem_of_lookup_fromList h)
    cases heq
    have := (List.mem_zipIdx he).2.1
    show (e.2 : Int) < (scen.nodes.length : Int)
    omega
  msgIds := fun m inf h => by cases h
  agrees := fun f fb h => by
    obtain ⟨e, he, heq⟩ := List.mem_map.1 (mem_of_lookup_fromList h)
    cases heq
    exact ⟨_, rfl⟩

/-- **Every world of a run is good.** -/
theorem good_run {w w' : World P} (hg : Good w) {ms : List Move} (h : Transition.run moveStep w ms = some w') : Good w' :=
  Transition.run_invariant (P := fun _ _ => True) (fun _ _ _ hg _ h => good_move hg h) hg
    (Transition.along_of_forall (fun _ _ => trivial) w ms) h

end Wireform.Sim

/-
  The variables of a run.

  `Held evs w`: every variable that the current incarnation of a node created,
  by the events `evs`, is in the node's heap with its type.  A run whose uses
  are of such variables keeps this and raises no error (`held_move`).
-/
import Wireform.Sim.Messages

namespace Wireform.Sim

open AssocMap Transition

variable {P : Platform}

/-! ## The heap of a node -/

/-- The cells of a node and the next handle. -/
def vars (n : NodeId) (w : World P) : AssocMap SimVar (Dyn P) × SimVar := ((nodeOf n w).heap, (nodeOf n w).heapCtr)

theorem vars_setNode (n n' : NodeId) (ns : NodeState P) (w : World P) :
    vars n' (setNode n ns w) = if n' = n then (ns.heap, ns.heapCtr) else vars n' w := by
  rw [vars, nodeOf_setNode]
  split_ifs
  · rfl
  · rfl

theorem vars_of_nodes {w w' : World P} (h : w'.nodes = w.nodes) (n : NodeId) : vars n w' = vars n w := by
  rw [vars, vars, nodeOf, nodeOf, h]

/-- A change of a node that keeps its cells. -/
theorem vars_modNode (n n' : NodeId) (f : NodeState P → NodeState P) (w : World P)
    (hf : ∀ ns, (f ns).heap = ns.heap ∧ (f ns).heapCtr = ns.heapCtr) : vars n' (modNode n f w) = vars n' w := by
  have hlookup : (modNode n f w).nodes.lookup n' = if n' = n then (w.nodes.lookup n).map f else w.nodes.lookup n' :=
    lookup_adjust f n n' w.nodes
  unfold vars nodeOf
  rw [hlookup]
  split_ifs with hn
  · rw [hn]
    cases w.nodes.lookup n with
    | none => rfl
    | some ns => exact Prod.ext (hf ns).1 (hf ns).2
  · rfl

theorem vars_unpause (n : NodeId) (w : World P) : vars n (wakeDue w) = vars n w := by
  have hlookup : (wakeDue w).nodes.lookup n = (w.nodes.lookup n).map (unpause w.clock) :=
    lookup_map (unpause w.clock) n w.nodes
  unfold vars nodeOf
  rw [hlookup]
  cases w.nodes.lookup n with
  | none => rfl
  | some ns =>
    show ((unpause w.clock ns).heap, (unpause w.clock ns).heapCtr) = _
    unfold unpause
    split
    · split_ifs <;> rfl
    · rfl

/-! ## One operation -/

/-- The variables that are live by the events are in the heap. -/
def Held (evs : List (VarEvent P)) (w : World P) : Prop :=
  ∀ n v τ, Live evs n v τ → v < (vars n w).2 ∧ ∃ a, (vars n w).1.lookup v = some ⟨τ, a⟩

variable {evs : List (VarEvent P)} {w : World P} {node : NodeId}

theorem Held.congr {w w' : World P} (h : Held evs w) (hvars : ∀ n, vars n w' = vars n w) :
    Held evs w' := fun n v τ hl => by
  rw [hvars]
  exact h n v τ hl

theorem held_silent {w w' : World P} (h : Held evs w) (hvars : ∀ n, vars n w' = vars n w) :
    Held (evs ++ []) w' := by
  rw [List.append_nil]
  exact h.congr hvars

theorem held_created (h : Held evs w) (node : NodeId) (τ : P.Ty) (a : P.El τ) :
    Held (evs ++ [.created node (nodeOf node w).heapCtr τ]) (doNewVar node τ a w).2 := by
  intro n v σ hl
  have hvars : vars n (doNewVar node τ a w).2 = if n = node then
      (AssocMap.insert (nodeOf node w).heapCtr ⟨τ, a⟩ (nodeOf node w).heap, (nodeOf node w).heapCtr + 1) else vars n w :=
    vars_setNode _ _ _ _
  rw [hvars]
  rcases live_snoc hl with he | ⟨hl, _⟩
  · cases he
    rw [if_pos rfl]
    exact ⟨Int.lt_succ _, a, by rw [lookup_insert, if_pos rfl]⟩
  · obtain ⟨hlt, b, hb⟩ := h n v σ hl
    split_ifs with hn
    · subst hn
      refine ⟨hlt.trans (Int.lt_succ _), b, ?_⟩
      rw [lookup_insert, if_neg (show v ≠ (nodeOf n w).heapCtr from ne_of_lt hlt)]
      exact hb
    · exact ⟨hlt, b, hb⟩

theorem held_written (h : Held evs w) {τ : P.Ty} {v : SimVar}
    (hlive : Live evs node v τ) (a : P.El τ) : Held evs (doWriteVar node τ v a w) := by
  intro n v' σ hl
  have hvars : vars n (doWriteVar node τ v a w) = if n = node then
      (AssocMap.insert v ⟨τ, a⟩ (nodeOf node w).heap, (nodeOf node w).heapCtr) else vars n w := vars_setNode _ _ _ _
  rw [hvars]
  obtain ⟨hlt, b, hb⟩ := h n v' σ hl
  split_ifs with hn
  · subst hn
    refine ⟨hlt, ?_⟩
    rw [lookup_insert]
    split_ifs with hv
    · subst hv
      obtain ⟨_, c, hc⟩ := h n v' τ hlive
      rw [hb] at hc
      cases hc
      exact ⟨a, rfl⟩
    · exact ⟨b, hb⟩
  · exact ⟨hlt, b, hb⟩

theorem held_used (h : Held evs w) (n : NodeId) (v : SimVar) (τ : P.Ty) :
    Held (evs ++ [.used n v τ]) w := by
  intro n' v' σ hl
  rcases live_snoc hl with he | ⟨hl, _⟩
  · cases he
  · exact h n' v' σ hl

/-- A live variable is read. -/
theorem doReadVar_ok (h : Held evs w) {v : SimVar} {τ : P.Ty}
    (hlive : Live evs node v τ) : ∃ a, doReadVar node τ v w = .ok a := by
  obtain ⟨_, a, ha⟩ := h node v τ hlive
  refine ⟨a, ?_⟩
  replace ha : (nodeOf node w).heap.lookup v = some ⟨τ, a⟩ := ha
  rw [doReadVar, ha]
  exact dif_pos rfl

theorem vars_storeWrite (node : NodeId) (key : Key) (body : ByteString) (w : World P) (n : NodeId) :
    vars n (doStoreWrite node key body w) = vars n w := by
  unfold doStoreWrite
  dsimp only
  have hset : ∀ (ns : NodeState P) (w' : World P), w'.nodes = w.nodes → ns.heap = (nodeOf node w).heap →
      ns.heapCtr = (nodeOf node w).heapCtr → vars n (setNode node ns w') = vars n w := by
    intro ns w' hw h1 h2
    rw [vars_setNode]
    split_ifs with hn
    · rw [hn, h1, h2]
      rfl
    · exact vars_of_nodes hw n
  split_ifs
  · exact hset _ _ rfl rfl rfl
  · exact hset _ _ rfl rfl rfl
  · exact hset _ _ rfl rfl rfl

theorem vars_buggify (s : SiteId) (p : Float) (w : World P) (n : NodeId) : vars n (doBuggify s p w).2 = vars n w := by
  unfold doBuggify
  split
  · rfl
  · split <;> rfl

theorem vars_send (src dst : NodeId) (body : ByteString) (w : World P) (n : NodeId) :
    vars n (doSend src dst body w).1 = vars n w := by
  unfold doSend
  dsimp only
  split_ifs <;> rfl

theorem vars_fsync (node : NodeId) (w : World P) (n : NodeId) : vars n (doFsync node w) = vars n w := by
  refine (vars_setNode _ _ _ _).trans ?_
  split_ifs with hn
  · rw [hn]
    rfl
  · rfl

/-- **An operation on live variables raises no error and keeps the heap.** -/
theorem held_perform (h : Held evs w) (op : SimOp P)
    (hown : ∀ v τ, varBy (node, .op w op) = some (.used node v τ) → Live evs node v τ) :
    ∃ r w' es, perform node w op = .ok (r, w', es) ∧ Held (evs ++ (varBy (node, .op w op)).toList) w' := by
  cases op with
  | newVar τ a => exact ⟨_, _, _, rfl, held_created h node τ a⟩
  | readVar τ v =>
    obtain ⟨a, ha⟩ := doReadVar_ok h (hown v τ rfl)
    exact ⟨a, w, [], by rw [perform, ha]; rfl, held_used h node v τ⟩
  | writeVar τ v a => exact ⟨_, _, _, rfl, held_used (held_written h (hown v τ rfl) a) node v τ⟩
  | modifyVar τ σ v f =>
    obtain ⟨a, ha⟩ := doReadVar_ok h (hown v τ rfl)
    exact ⟨(f a).2, doWriteVar node τ v (f a).1 w, [], by rw [perform, ha]; rfl,
      held_used (held_written h (hown v τ rfl) _) node v τ⟩
  | storeWrite key body =>
    exact ⟨_, _, _, rfl, held_silent h (vars_storeWrite node key body w)⟩
  | buggify s p => exact ⟨_, _, _, rfl, held_silent h (vars_buggify s p w)⟩
  | send dst body => exact ⟨_, _, _, rfl, held_silent h (vars_send node dst body w)⟩
  | fsync => exact ⟨_, _, _, rfl, held_silent h (vars_fsync node w)⟩
  | getTime | whoAmI | drawWord | storeRead | cover | observe | assertOp | logMsg =>
    exact ⟨_, _, _, rfl, held_silent h fun _ => rfl⟩

/-! ## A fiber's step, and a move -/

theorem Own.live {evs evs' : List (VarEvent P)} {n : NodeId} {v : SimVar} {τ : P.Ty}
    (h : Own (evs ++ .used n v τ :: evs')) : Live evs n v τ := h evs evs' n v τ rfl

/-- A fiber's step on live variables raises no error and keeps the heap. -/
theorem held_goP {prog : Prog P} : ∀ {evs : List (VarEvent P)} (evAcc : List SimEvent) {w : World P},
    Held evs w → Own (evs ++ (acts node w prog).filterMap fun a => varBy (node, a)) →
    ∃ w' es out, runReady.goP node evAcc w prog = .ok (w', es, out) ∧
      Held (evs ++ (acts node w prog).filterMap fun a => varBy (node, a)) w' := by
  induction prog with
  | pure | yield | delay | recv =>
    intro evs evAcc w h hown
    exact ⟨_, _, _, rfl, by rw [acts, List.filterMap_nil, List.append_nil]; exact h⟩
  | fork p k _ ih =>
    intro evs evAcc w h hown
    exact ih _ evAcc (h.congr fun _ => rfl) hown
  | bind op k ih =>
    intro evs evAcc w h hown
    rw [acts, filterMap_cons_toList, ← List.append_assoc] at hown ⊢
    obtain ⟨r, w₁, es, hp, hheld⟩ := held_perform h op fun v τ hv => by
      rw [hv] at hown
      exact hown.left.live
    rw [hp] at hown ⊢
    obtain ⟨w', es', out, hrun, hheld'⟩ := ih r (es.reverse ++ evAcc) hheld hown
    exact ⟨w', es', out, by rw [runReady.goP, hp]; exact hrun, hheld'⟩

/-- After a crash the node has no live variables. -/
theorem held_crash (h : Held evs w) (n : NodeId) :
    Held (evs ++ [.lost n]) (crashNode n w) := by
  intro n' v τ hl
  rcases live_snoc hl with he | ⟨hl, hne⟩
  · cases he
  · have hn : n' ≠ n := fun he => hne (by rw [he])
    have hlookup : (crashNode n w).nodes.lookup n' = w.nodes.lookup n' :=
      (lookup_adjust clearVol n n' w.nodes).trans (if_neg hn)
    rw [show vars n' (crashNode n w) = vars n' w by rw [vars, vars, nodeOf, nodeOf, hlookup]]
    exact h n' v τ hl

theorem vars_reboot (n n' : NodeId) (w : World P) : vars n' (rebootNode n w) = vars n' w := by
  have hset : ∀ ns : NodeState P, ns.heap = (nodeOf n w).heap → ns.heapCtr = (nodeOf n w).heapCtr →
      vars n' (setNode n ns w) = vars n' w := by
    intro ns h1 h2
    rw [vars_setNode]
    split_ifs with hn
    · rw [hn, h1, h2]
      rfl
    · rfl
  unfold rebootNode
  split
  · exact hset _ rfl rfl
  · exact (vars_of_nodes rfl n').trans (hset _ rfl rfl)

/-- Of the faults only a crash touches the variables. -/
theorem held_fault (h : Held evs w) (op : FaultOp) :
    Held (evs ++ lostBy op) (applyFault op w).1 := by
  cases op with
  | crashNode n => exact held_crash h n
  | rebootNode n => exact held_silent h fun n' => vars_reboot n n' w
  | dropMessage | partition | heal | clog => exact held_silent h fun _ => rfl
  | pauseNode n t | clockSkew n t | diskLatency n t =>
    exact held_silent h fun n' => vars_modNode n n' _ w fun _ => ⟨rfl, rfl⟩
  | corruptWrite n | tearWrite n => exact held_silent h fun n' => vars_modNode n n' _ w fun _ => ⟨rfl, rfl⟩

theorem vars_advanceClock (w : World P) (n : NodeId) : vars n (advanceClock w) = vars n w := by
  obtain ⟨clk, _, h | h⟩ := advanceClock_eq w
  · rw [h, vars_unpause]
    rfl
  · rw [h]

/-- A decision raises no error when the operations of the step are on live
    variables. -/
theorem step_ok (hg : Good w) (h : Held evs w) {d : Decision}
    (hd : d ∈ runnable w) (hown : Own (evs ++ varsIn (w, .decide d))) : ∃ r, step w d = .ok r := by
  cases d with
  | schedNext f =>
    obtain ⟨fb, hmem, hs, hup⟩ := sched_mem_runnable.1 hd
    have hf := (hg.fibers.mem_iff f fb).1 hmem
    have hagrees := hg.agrees f fb hf
    unfold Fiber.Agrees at hagrees
    rw [hs] at hagrees
    obtain ⟨prog, hr⟩ := hagrees
    rw [varsIn, moveActs_ran hf hs hr, List.filterMap_map, ← List.append_assoc] at hown
    obtain ⟨w', es, out, hrun, _⟩ := held_goP [] h hown.left
    replace hrun : runReady fb.node w prog = .ok (w', es, out) := hrun
    simp only [step, hf, hs, hr, hrun, if_true]
    exact ⟨_, rfl⟩
  | deliverMsg m =>
    rw [step]
    split
    · exact ⟨_, rfl⟩
    · split_ifs
      · exact ⟨_, rfl⟩
      · split <;> exact ⟨_, rfl⟩
  | fireFault i =>
    rw [step]
    split <;> exact ⟨_, rfl⟩

/-- **A move on live variables keeps the heaps.** -/
theorem held_move {w w' : World P} {m : Move} (hg : Good w) (h : Held evs w)
    (hown : Own (evs ++ varsIn (w, m))) (hm : moveStep w m = some w') : Held (evs ++ varsIn (w, m)) w' := by
  cases moved hg hm with
  | @ran f fb prog w₁ es out hf hs hr hup hrun =>
    rw [varsIn, moveActs_ran hf hs hr, List.filterMap_map] at hown ⊢
    rw [← List.append_assoc] at hown
    obtain ⟨w₂, es', out', hrun', hheld⟩ := held_goP [] h hown.left
    replace hrun' : runReady fb.node w prog = .ok (w₂, es', out') := hrun'
    rw [hrun] at hrun'
    cases hrun'
    refine Held.congr ?_ fun n => vars_of_nodes rfl n
    rw [show (firedFault w (.decide (.schedNext f))).elim ([] : List (VarEvent P)) lostBy = [] from rfl, List.append_nil]
    exact hheld
  | delivered => exact held_silent h fun _ => rfl
  | @fired i op hop =>
    have hvars : varsIn (w, .decide (.fireFault i)) = lostBy op := by
      rw [varsIn, hop]
      rfl
    rw [hvars]
    exact (held_fault h op).congr fun n => vars_of_nodes rfl n
  | ticked => exact held_silent h (vars_advanceClock w)

/-- The variables along a run. -/
theorem held_run {w₀ w : World P} (hg : Good w₀) {ms : List Move} (hrun : run moveStep w₀ ms = some w)
    (hown : Own (varEvents w₀ ms)) : Good w ∧ Held (varEvents w₀ ms) w := by
  induction ms using List.reverseRecOn generalizing w with
  | nil =>
    cases hrun
    refine ⟨hg, fun n v τ hl => ?_⟩
    obtain ⟨l₁, l₂, heq, _⟩ := hl
    exact absurd heq (by simp [varEvents, trace])
  | append_singleton ms m ih =>
    obtain ⟨w₁, hrun₁, hm⟩ := run_append.1 hrun
    obtain ⟨w₂, hm, hnil⟩ := run_cons.1 hm
    cases hnil
    have hevs : varEvents w₀ (ms ++ [m]) = varEvents w₀ ms ++ varsIn (w₁, m) := by
      rw [varEvents, trace_snoc hrun₁, List.flatMap_append, List.flatMap_singleton]
      rfl
    rw [hevs] at hown ⊢
    obtain ⟨hg₁, hheld⟩ := ih hrun₁ hown.left
    exact ⟨good_move hg₁ hm, held_move hg₁ hheld hown hm⟩

end Wireform.Sim

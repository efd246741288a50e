/-
  The messages of a run.

  * `goP_between`: identifiers drawn from a counter in a fiber's step ascend;
  * `acts_performed`: every operation of a fiber's step was performed, with what
    it left in the frame of the rest of the step;
  * `flight_move`, `sent_move`, `sent_between`: what one move takes out of
    flight, what it brings in, and the ids it uses.
-/
import Wireform.Sim.History

namespace Wireform.Sim

open AssocMap Transition

variable {P : Platform}

/-! ## The operations of a fiber's step -/

theorem filterMap_cons_toList {α β : Type} (f : α → Option β) (a : α) (l : List α) :
    (a :: l).filterMap f = (f a).toList ++ l.filterMap f := by
  cases h : f a <;> simp [h]

variable {w w' : World P} {prog : Prog P}

/-- A counter over a fiber's step. -/
theorem goP_between (node : NodeId) (ctr : World P → Int) (idOf : Act P → Option Int)
    (hop : ∀ {w w' : World P} {op : SimOp P} {r : op.Result} {evs : List SimEvent}, perform node w op = .ok (r, w', evs) →
      ctr w ≤ ctr w' ∧ Between (ctr w) (ctr w') (idOf (.op w op)).toList)
    (hfork : ∀ (w : World P) (p : Prog P), ctr w ≤ ctr (spawn node p w).2 ∧
      Between (ctr w) (ctr (spawn node p w).2) (idOf (.fork w p)).toList)
    : ∀ {evAcc : List SimEvent} {w w' : World P} {evs : List SimEvent} {out : StepOut P},
      runReady.goP node evAcc w prog = .ok (w', evs, out) →
      ctr w ≤ ctr w' ∧ Between (ctr w) (ctr w') ((acts node w prog).filterMap idOf) := by
  induction prog with
  | pure | yield | delay | recv =>
    intro evAcc w w' evs out h
    cases h
    exact ⟨le_rfl, between_nil _ _⟩
  | fork p k _ ih =>
    intro evAcc w w' evs out h
    obtain ⟨hle, hids⟩ := hfork w p
    obtain ⟨hle', hids'⟩ := ih _ h
    rw [acts, filterMap_cons_toList]
    exact ⟨hle.trans hle', hids.append hle hle' hids'⟩
  | bind op k ih =>
    intro evAcc w w' evs out h
    rw [runReady.goP] at h
    cases hp : perform node w op with
    | error e => rw [hp] at h; cases h
    | ok res =>
      obtain ⟨r, w₁, evs₁⟩ := res
      rw [hp] at h
      obtain ⟨hle, hids⟩ := hop hp
      obtain ⟨hle', hids'⟩ := ih r h
      rw [acts, hp, filterMap_cons_toList]
      exact ⟨hle.trans hle', hids.append hle hle' hids'⟩

/-- An operation of a fiber's step was performed, between frames. -/
theorem acts_performed {node : NodeId} {w₁ : World P} {op₁ : SimOp P} :
    ∀ {evAcc : List SimEvent} {w w' : World P} {evs : List SimEvent} {out : StepOut P},
      runReady.goP node evAcc w prog = .ok (w', evs, out) → .op w₁ op₁ ∈ acts node w prog →
      Ran node w w₁ ∧ ∃ r w₂ evs₂, perform node w₁ op₁ = .ok (r, w₂, evs₂) ∧ Ran node w₂ w' := by
  induction prog with
  | pure | yield | delay | recv =>
    intro evAcc w w' evs out h hmem
    cases hmem
  | fork p k _ ih =>
    intro evAcc w₀ w' evs out h hmem
    rw [acts] at hmem
    rcases List.mem_cons.1 hmem with he | hmem
    · cases he
    · exact (ih _ h hmem).imp_left (spawn_ran node p w₀).trans
  | bind op k ih =>
    intro evAcc w w' evs out h hmem
    rw [runReady.goP] at h
    cases hp : perform node w op with
    | error e => rw [hp] at h; cases h
    | ok res =>
      obtain ⟨r, w₂, evs₂⟩ := res
      rw [hp] at h
      rw [acts, hp] at hmem
      rcases List.mem_cons.1 hmem with he | hmem
      · cases he
        exact ⟨Ran.refl node _, r, w₂, evs₂, hp, goP_ran h⟩
      · exact (ih r h hmem).imp_left (performed hp).ran.trans

/-! ## Messages -/

theorem doSend_inFlight (n dst : NodeId) (body : ByteString) (w : World P) (m : MsgId) :
    (doSend n dst body w).1.inFlight.lookup m =
      if m = w.nextMsg ∧ ¬ (P.nextDouble w.gen).1 < (linkPolicy n dst w).drop then
        some ⟨n, dst, body, w.clock + (sampleLatency (linkPolicy n dst w).latency (P.nextDouble w.gen).2).1⟩
      else w.inFlight.lookup m := by
  unfold doSend
  dsimp only
  split_ifs with hroll h h
  · exact absurd hroll h.2
  · rfl
  · rw [h.1]
    exact (lookup_insert _ _ _ _).trans (if_pos rfl)
  · exact (lookup_insert _ _ _ _).trans (if_neg fun hm => h ⟨hm, hroll⟩)

theorem doSend_nextMsg (n dst : NodeId) (body : ByteString) (w : World P) :
    (doSend n dst body w).1.nextMsg = w.nextMsg + 1 := by
  unfold doSend
  dsimp only
  split_ifs <;> rfl

/-- Only `Send` touches the messages. -/
theorem Performed.messages {node : NodeId} {op : SimOp P} (h : Performed node w op w') :
    (∃ dst body, op = .send dst body ∧ w' = (doSend node dst body w).1) ∨
      (sentBy (node, .op w op) = none ∧ w'.inFlight = w.inFlight ∧ w'.nextMsg = w.nextMsg) := by
  have hnone (hop : ∀ dst body, op ≠ .send dst body) : sentBy (node, .op w op) = none := by
    cases op with
    | send dst body => exact absurd rfl (hop dst body)
    | _ => rfl
  cases h with
  | sent dst body => exact Or.inl ⟨dst, body, rfl, rfl⟩
  | drew hop g b => exact Or.inr ⟨hnone hop, rfl, rfl⟩
  | stored hop g halive hpaused => exact Or.inr ⟨hnone hop, rfl, rfl⟩

/-- A message in flight after a fiber's step was there before, or the step sent
    it. -/
theorem goP_inFlight {node : NodeId} {m : MsgId} {inf : InFlight} :
    ∀ {evAcc : List SimEvent} {w w' : World P} {evs : List SimEvent} {out : StepOut P},
      runReady.goP node evAcc w prog = .ok (w', evs, out) → w'.inFlight.lookup m = some inf →
      w.inFlight.lookup m = some inf ∨ ∃ a ∈ acts node w prog, sentBy (node, a) = some (letterOf m inf) := by
  induction prog with
  | pure | yield | delay | recv =>
    intro evAcc w w' evs out h hm
    cases h
    exact Or.inl hm
  | fork p k _ ih =>
    intro evAcc w w' evs out h hm
    rcases ih _ h hm with hold | ⟨a, ha, hsent⟩
    · exact Or.inl hold
    · rw [acts]
      exact Or.inr ⟨a, List.mem_cons_of_mem _ ha, hsent⟩
  | bind op k ih =>
    intro evAcc w w' evs out h hm
    rw [runReady.goP] at h
    cases hp : perform node w op with
    | error e => rw [hp] at h; cases h
    | ok res =>
      obtain ⟨r, w₁, evs₁⟩ := res
      rw [hp] at h
      rw [acts, hp]
      rcases ih r h hm with hold | ⟨a, ha, hsent⟩
      · rcases (performed hp).messages with ⟨dst, body, rfl, rfl⟩ | ⟨_, hsame, _⟩
        · rw [doSend_inFlight] at hold
          split_ifs at hold with hcond
          · cases hold
            exact Or.inr ⟨_, List.mem_cons_self, by rw [sentBy, letterOf, hcond.1]⟩
          · exact Or.inl hold
        · rw [hsame] at hold
          exact Or.inl hold
      · exact Or.inr ⟨a, List.mem_cons_of_mem _ ha, hsent⟩

theorem advanceClock_messages (w : World P) :
    (advanceClock w).inFlight = w.inFlight ∧ (advanceClock w).nextMsg = w.nextMsg := by
  obtain ⟨clk, _, h | h⟩ := advanceClock_eq w
  · rw [h]
    exact ⟨rfl, rfl⟩
  · rw [h]
    exact ⟨rfl, rfl⟩

theorem moveActs_ran {w : World P} {f : FiberId} {fb : Fiber P} (hf : w.fibers.lookup f = some fb)
    (hs : fb.status = .runnable) (hr : fb.resume = .ready prog) :
    moveActs w (.decide (.schedNext f)) = (acts fb.node w prog).map fun a => (fb.node, a) := by
  obtain ⟨n, res, st⟩ := fb
  cases hs
  cases hr
  simp only [moveActs, hf]

/-- The ids sent in a move. -/
theorem sent_between {m : Move} (hg : Good w) (h : moveStep w m = some w') :
    w.nextMsg ≤ w'.nextMsg ∧ Between w.nextMsg w'.nextMsg ((sentIn (w, m)).map Prod.fst) := by
  cases moved hg h with
  | @ran f fb prog w₁ evs out hf hs hr hup hrun =>
    have hids := goP_between fb.node World.nextMsg (fun a => (sentBy (fb.node, a)).map Prod.fst)
      (fun hp => by
        rcases (performed hp).messages with ⟨dst, body, rfl, rfl⟩ | ⟨hnone, _, hsame⟩
        · rw [doSend_nextMsg]
          exact ⟨by omega, between_singleton (Int.lt_succ _)⟩
        · rw [hnone, hsame]
          exact ⟨le_rfl, between_nil _ _⟩)
      (fun w p => ⟨le_rfl, between_nil _ _⟩) hrun
    rw [sentIn, moveActs_ran hf hs hr, List.filterMap_map, List.map_filterMap]
    exact hids
  | delivered => exact ⟨le_rfl, between_nil _ _⟩
  | @fired i op hop =>
    have hsame : (applyFault op w).1.nextMsg = w.nextMsg := by
      cases op with
      | rebootNode n => exact (rebootNode_messages n w).2
      | _ => rfl
    exact ⟨hsame.ge, between_nil _ _⟩
  | ticked =>
    have hsame := (advanceClock_messages w).2
    exact ⟨hsame.ge, between_nil _ _⟩

/-- What a move leaves of the messages in flight. -/
theorem flight_move {a : Move} (hg : Good w) (h : moveStep w a = some w') {m : MsgId} {inf : InFlight}
    (hm : w.inFlight.lookup m = some inf) :
    w'.inFlight.lookup m = some inf ∨ a = .decide (.deliverMsg m) ∨ firedFault w a = some (.dropMessage m) := by
  cases moved hg h with
  | ran hf hs hr hup hrun => exact Or.inl (((runReady_ran hrun).msgOld m (hg.msgIds m inf hm)).trans hm)
  | @delivered m' inf' f k hm' =>
    by_cases he : m = m'
    · exact Or.inr (Or.inl (by rw [he]))
    · exact Or.inl ((lookup_filter_ne m' m _).trans ((if_neg he).trans hm))
  | @fired i op hop =>
    cases op with
    | dropMessage m' =>
      by_cases he : m = m'
      · exact Or.inr (Or.inr (he ▸ hop))
      · exact Or.inl ((lookup_filter_ne m' m _).trans ((if_neg he).trans hm))
    | rebootNode n =>
      left
      show (rebootNode n w).inFlight.lookup m = some inf
      rw [(rebootNode_messages n w).1]
      exact hm
    | _ => exact Or.inl hm
  | ticked =>
    rw [(advanceClock_messages w).1]
    exact Or.inl hm

/-- What a move brings into flight was sent in it. -/
theorem sent_move {a : Move} (hg : Good w) (h : moveStep w a = some w') {m : MsgId} {inf : InFlight}
    (hm : w'.inFlight.lookup m = some inf) : w.inFlight.lookup m = some inf ∨ letterOf m inf ∈ sentIn (w, a) := by
  cases moved hg h with
  | @ran f fb prog w₁ evs out hf hs hr hup hrun =>
    rcases goP_inFlight hrun hm with hold | ⟨a, ha, hsent⟩
    · exact Or.inl hold
    · refine Or.inr (List.mem_filterMap.2 ⟨(fb.node, a), ?_, hsent⟩)
      rw [moveActs_ran hf hs hr]
      exact List.mem_map_of_mem ha
  | @delivered m' inf' f k hm' =>
    replace hm : lookup m (w.inFlight.filter fun e => e.1 ≠ m') = some inf := hm
    rw [lookup_filter_ne] at hm
    split_ifs at hm
    exact Or.inl hm
  | @fired i op hop =>
    cases op with
    | dropMessage m' =>
      replace hm : lookup m (w.inFlight.filter fun e => e.1 ≠ m') = some inf := hm
      rw [lookup_filter_ne] at hm
      split_ifs at hm
      exact Or.inl hm
    | rebootNode n =>
      replace hm : (rebootNode n w).inFlight.lookup m = some inf := hm
      rw [(rebootNode_messages n w).1] at hm
      exact Or.inl hm
    | _ => exact Or.inl hm
  | ticked =>
    rw [(advanceClock_messages w).1] at hm
    exact Or.inl hm

end Wireform.Sim

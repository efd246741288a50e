/-
  What the worker pool delivers, for every interleaving of its threads.

  The records of a partition that were routed to a worker are those that are finished,
  those one worker holds, and the one that is being enqueued, in this order
  (`Delivered`).

  * `step_inv`: one step, with `Guarded` for what the code does not look after: a record
    that is routed while a removed worker still holds others of its partition, an
    enqueue to a worker that has stopped, and a worker that owns other partitions;
  * `delivered_in_order`: over a run every partition is delivered;
  * `fed_twice_at_once`: two workers that process one partition at the same time.
-/
import Wireform.Kafka.Streams.WorkerPool

namespace Wireform.Kafka.Streams.Pool

open Transition

variable {hash : TopicPartition → Int64} {s s' : State} {e : Event} {r : WorkRecord} {tp : TopicPartition} {w : Nat}

/-! ## Records of a partition -/

def onTp (tp : TopicPartition) (l : List WorkRecord) : List WorkRecord := l.filter fun r => r.tp = tp

/-- What a worker has taken or queued, and not finished. -/
def Worker.held (x : Worker) : List WorkRecord :=
  match x.workerLoop with
  | .feeding r => r :: x.workerInbox
  | _ => x.workerInbox

attribute [grind =] Worker.held

/-- The record that has a worker, and is not in its inbox yet. -/
def Submitter.picked : Submitter → List WorkRecord
  | .enqueue r _ => [r]
  | _ => []

def State.worker (s : State) (w : Nat) : Worker := s.pool.worker w

/-- Every record that was routed to a worker is processed exactly once and in order. -/
structure Delivered (s : State) : Prop where
  inOrder : ∀ tp, ∃ w, onTp tp s.routed =
      onTp tp s.finished ++ onTp tp (s.worker w).held ++ onTp tp s.submitter.picked ∧
    ∀ w', w' ≠ w → onTp tp (s.worker w').held = []
  /-- Two workers never process one partition at the same time. -/
  alone : ∀ w w' r r', (s.worker w).workerLoop = .feeding r → (s.worker w').workerLoop = .feeding r' →
    r.tp = r'.tp → w = w'
  /-- When no loop can go on, everything has been processed. -/
  atRest : s.submitter.picked = [] → (∀ w, workerLoop w s = none) → ∀ tp, onTp tp s.finished = onTp tp s.routed

@[simp] theorem onTp_nil : onTp tp [] = [] := rfl

@[simp] theorem onTp_append (l l' : List WorkRecord) : onTp tp (l ++ l') = onTp tp l ++ onTp tp l' :=
  List.filter_append _ _

theorem onTp_cons_self (l : List WorkRecord) : onTp r.tp (r :: l) = r :: onTp r.tp l :=
  List.filter_cons_of_pos (decide_eq_true rfl)

theorem onTp_cons_ne (l : List WorkRecord) (h : r.tp ≠ tp) : onTp tp (r :: l) = onTp tp l :=
  List.filter_cons_of_neg (by simpa using h)

@[simp] theorem worker_update (p : WorkerPool) (w w' : Nat) (x : Worker) :
    (p.update w x).worker w' = if w' = w then x else p.worker w' := Function.update_apply _ _ _ _

/-- A worker of the state changes. -/
def State.setWorker (s : State) (w : Nat) (x : Worker) : State := { s with pool := s.pool.update w x }

theorem worker_setWorker (s : State) (w w' : Nat) (x : Worker) :
    (s.setWorker w x).worker w' = if w' = w then x else s.worker w' := worker_update _ _ _ _

variable {x : Worker}

theorem stop_setWorker (hstop : x.workerStop = (s.worker w).workerStop) (w' : Nat) :
    ((s.setWorker w x).worker w').workerStop = (s.worker w').workerStop := by
  rw [worker_setWorker]
  split_ifs with hw
  · rw [hw, hstop]
  · rfl

theorem held_enqueue (x : Worker) : (x.enqueue r).held = x.held ++ [r] := by
  obtain ⟨owned, inbox, stop, processed, submitted, loop⟩ := x
  cases loop
  · rfl
  · rfl
  · rfl
  · rfl

/-! ## The invariant -/

/-- A worker has taken a record and not counted it. -/
def Loop.busy : Loop → Nat
  | .feeding _ => 1
  | .counting => 1
  | _ => 0

/-- The worker was the one for the partition of the record when the table was read. -/
def Bound (s : State) (r : WorkRecord) (w : Nat) : Prop :=
  ((s.worker w).workerStop = true ∨ AssocMap.lookup r.tp s.pool.poolRouting = some w) ∧
    ∀ w' ∈ s.pool.poolWorkersTV, onTp r.tp (s.worker w').held ≠ [] → w' = w

/-- Who is in the pool, and who is not any more. -/
structure Members (s : State) : Prop where
  byIdx : ∀ w, w ∈ s.pool.poolByIdxTV ↔ w ∈ s.pool.poolWorkersTV
  nodup : s.pool.poolWorkersTV.Nodup
  live_lt : ∀ w ∈ s.pool.poolWorkersTV, w < s.pool.poolNextWorkerId
  live : ∀ w ∈ s.pool.poolWorkersTV, (s.worker w).workerStop = false
  adding : ∀ w ∈ s.adding, w < s.pool.poolNextWorkerId ∧ w ∉ s.pool.poolWorkersTV ∧ (s.worker w).workerStop = false
  adding_nodup : s.adding.Nodup
  stopped_lt : ∀ w, (s.worker w).workerStop = true → w < s.pool.poolNextWorkerId
  draining : ∀ w ∈ s.draining ++ s.cancelling, (s.worker w).workerStop = true

/-- Who may hold records. -/
structure Placed (s : State) : Prop where
  /-- A worker that was never in the pool has nothing to do. -/
  fresh : ∀ w, w ∉ s.pool.poolWorkersTV → (s.worker w).workerStop = false → (s.worker w).held = []
  route : ∀ w ∈ s.pool.poolWorkersTV, ∀ tp, onTp tp (s.worker w).held ≠ [] →
    AssocMap.lookup tp s.pool.poolRouting = some w
  bound : ∀ r w, (s.submitter = .readByIdx r w → Bound s r w) ∧
    (s.submitter = .enqueue r w → Bound s r w ∧ (w ∈ s.pool.poolWorkersTV ∨ (s.worker w).workerStop = true))
  cancelling : ∀ w ∈ s.cancelling, (s.worker w).held = []

structure Inv (s : State) : Prop extends Members s, Placed s where
  inOrder : ∀ tp, ∃ w, onTp tp s.routed =
      onTp tp s.finished ++ onTp tp (s.worker w).held ++ onTp tp s.submitter.picked ∧
    ∀ w', w' ≠ w → onTp tp (s.worker w').held = []
  gone : ∀ w, (s.worker w).workerLoop = .gone → (s.worker w).workerStop = true ∧ (s.worker w).held = []
  count : ∀ w, (s.worker w).workerLoop ≠ .gone →
    (s.worker w).workerProcessed + (s.worker w).workerInbox.length + (s.worker w).workerLoop.busy =
      (s.worker w).workerSubmitted

/-- A worker changes, but is not stopped. -/
theorem Members.setWorker (h : Members s) (hstop : x.workerStop = (s.worker w).workerStop) :
    Members (s.setWorker w x) := by
  refine { h with live := ?_, adding := ?_, stopped_lt := ?_, draining := ?_ }
  · intro w' hw'
    rw [stop_setWorker hstop]
    exact h.live w' hw'
  · intro w' hw'
    rw [stop_setWorker hstop]
    exact h.adding w' hw'
  · intro w' hw'
    rw [stop_setWorker hstop] at hw'
    exact h.stopped_lt w' hw'
  · intro w' hw'
    rw [stop_setWorker hstop]
    exact h.draining w' hw'

theorem held_setWorker (hheld : x.held.Sublist (s.worker w).held) (w' : Nat) :
    ((s.setWorker w x).worker w').held.Sublist (s.worker w').held := by
  rw [worker_setWorker]
  split_ifs with hw
  · rw [hw]
    exact hheld
  · exact List.Sublist.refl _

theorem onTp_sublist {l l' : List WorkRecord} (h : l.Sublist l') (hnil : onTp tp l' = []) : onTp tp l = [] := by
  have hsub : (onTp tp l).Sublist (onTp tp l') := h.filter _
  rw [hnil] at hsub
  exact List.sublist_nil.1 hsub

/-- A worker gets nothing new. -/
theorem Placed.setWorker (h : Placed s) (hstop : x.workerStop = (s.worker w).workerStop)
    (hheld : x.held.Sublist (s.worker w).held) : Placed (s.setWorker w x) := by
  have hbound : ∀ r w', Bound s r w' → Bound (s.setWorker w x) r w' := by
    rintro r w' ⟨hb, hothers⟩
    refine ⟨?_, fun w'' hl hh => ?_⟩
    · rw [stop_setWorker hstop]
      exact hb
    · exact hothers w'' hl fun hnil => hh (onTp_sublist (held_setWorker hheld w'') hnil)
  constructor
  · intro w' hl hs
    rw [stop_setWorker hstop] at hs
    exact List.sublist_nil.1 (h.fresh w' hl hs ▸ held_setWorker hheld w')
  · intro w' hl tp hh
    exact h.route w' hl tp fun hnil => hh (onTp_sublist (held_setWorker hheld w') hnil)
  · intro r w'
    refine ⟨fun h' => hbound r w' ((h.bound r w').1 h'), fun h' => ?_⟩
    obtain ⟨hb, hknown⟩ := (h.bound r w').2 h'
    rw [stop_setWorker hstop]
    exact ⟨hbound r w' hb, hknown⟩
  · exact fun w' hw' => List.sublist_nil.1 (h.cancelling w' hw' ▸ held_setWorker hheld w')

/-- No removed worker holds records of the partition. -/
def Clear (s : State) (w : Nat) (tp : TopicPartition) : Prop :=
  ∀ w' < s.pool.poolNextWorkerId, w' ∉ s.pool.poolWorkersTV → w' ≠ w → onTp tp (s.worker w').held = []

/-- What the code does not look after. -/
def Guarded (hash : TopicPartition → Int64) (s : State) : Event → Prop
  | .submitNext =>
    match s.submitter with
    | .enqueue r w => (s.worker w).workerLoop ≠ .gone ∧ w ∉ s.cancelling ∧ Clear s w r.tp
    | _ => True
  | .submitRecordHashedWith r => s.pool.poolWorkersTV ≠ [] → Clear s (routeHashed hash s.pool r.tp).1 r.tp
  | .workerLoop w =>
    match (s.worker w).workerLoop, (s.worker w).workerInbox with
    | .waiting, r :: _ => (s.worker w).owns r.tp = true
    | _, _ => True
  | _ => True

/-! ## Submission -/

theorem Inv.nothing_held (h : Inv s) (hw : s.pool.poolNextWorkerId ≤ w) : (s.worker w).held = [] := by
  refine h.fresh w (fun hl => absurd (h.live_lt w hl) (Nat.not_lt.2 hw)) ?_
  exact Bool.eq_false_iff.2 fun hs => absurd (h.stopped_lt w hs) (Nat.not_lt.2 hw)

/-- Only the worker it is bound to holds records of a partition. -/
theorem Inv.others (h : Inv s) (hb : Bound s r w) (hclear : Clear s w r.tp) {w' : Nat} (hne : w' ≠ w) :
    onTp r.tp (s.worker w').held = [] := by
  by_contra hheld
  by_cases hl : w' ∈ s.pool.poolWorkersTV
  · exact hne (hb.2 w' hl hheld)
  · rcases Nat.lt_or_ge w' s.pool.poolNextWorkerId with hlt | hge
    · exact hheld (hclear w' hlt hl hne)
    · rw [h.nothing_held hge] at hheld
      exact hheld rfl

def State.enqueue (s : State) (w : Nat) (r : WorkRecord) : State :=
  { s.setWorker w ((s.worker w).enqueue r) with submitter := .idle }

theorem Inv.enqueue (h : Inv s) (hsub : s.submitter = .enqueue r w) (hgone : (s.worker w).workerLoop ≠ .gone)
    (hc : w ∉ s.cancelling) (hclear : Clear s w r.tp) : Inv (s.enqueue w r) := by
  obtain ⟨hb, hknown⟩ := (h.bound r w).2 hsub
  have hself : (s.enqueue w r).worker w = (s.worker w).enqueue r := (worker_setWorker _ _ _ _).trans (if_pos rfl)
  have hother : ∀ w', w' ≠ w → (s.enqueue w r).worker w' = s.worker w' :=
    fun w' hne => (worker_setWorker _ _ _ _).trans (if_neg hne)
  have hsame : ∀ w' tp, r.tp ≠ tp → onTp tp ((s.enqueue w r).worker w').held = onTp tp (s.worker w').held := by
    intro w' tp htp
    by_cases hw : w' = w
    · rw [hw, hself, held_enqueue, onTp_append, onTp_cons_ne _ htp, onTp_nil, List.append_nil]
    · rw [hother w' hw]
  refine { h.toMembers.setWorker (w := w) (x := (s.worker w).enqueue r) rfl with
           fresh := ?_, route := ?_, bound := ?_, cancelling := ?_, inOrder := ?_, gone := ?_, count := ?_ }
  · intro w' hl hs
    have hne : w' ≠ w := by
      rintro rfl
      rw [hself] at hs
      rcases hknown with hk | hk
      · exact hl hk
      · exact absurd (hk.symm.trans hs) (by decide)
    rw [hother w' hne] at hs ⊢
    exact h.fresh w' hl hs
  · intro w' hl tp hheld
    by_cases htp : r.tp = tp
    · subst htp
      by_cases hw : w' = w
      · subst hw
        rcases hb.1 with hs | hr
        · rw [h.live w' hl] at hs
          cases hs
        · exact hr
      · rw [hother w' hw] at hheld
        exact h.route w' hl r.tp hheld
    · rw [hsame w' tp htp] at hheld
      exact h.route w' hl tp hheld
  · intro r' w'
    refine ⟨fun h' => ?_, fun h' => ?_⟩
    · cases h'
    · cases h'
  · intro w' hw'
    have hne : w' ≠ w := by
      rintro rfl
      exact hc hw'
    rw [hother w' hne]
    exact h.cancelling w' hw'
  · intro tp
    obtain ⟨w₀, heq, hothers⟩ := h.inOrder tp
    rw [hsub] at heq
    by_cases htp : r.tp = tp
    · subst htp
      have hw₀ : onTp r.tp (s.worker w₀).held = onTp r.tp (s.worker w).held := by
        by_cases hw : w₀ = w
        · rw [hw]
        · rw [h.others hb hclear hw, hothers w (Ne.symm hw)]
      refine ⟨w, ?_, fun w' hne => ?_⟩
      · rw [hself, held_enqueue, onTp_append, ← hw₀]
        refine heq.trans ?_
        simp [State.enqueue, State.setWorker, Submitter.picked]
      · rw [hother w' hne]
        exact h.others hb hclear hne
    · refine ⟨w₀, ?_, fun w' hne => ?_⟩
      · rw [hsame w₀ tp htp]
        refine heq.trans ?_
        rw [Submitter.picked, onTp_cons_ne _ htp]
        rfl
      · rw [hsame w' tp htp]
        exact hothers w' hne
  · intro w' hl
    have hne : w' ≠ w := by
      rintro rfl
      rw [hself] at hl
      exact hgone hl
    rw [hother w' hne] at hl ⊢
    exact h.gone w' hl
  · intro w' hl
    by_cases hw : w' = w
    · rw [hw, hself]
      have hcount := h.count w hgone
      simp only [Worker.enqueue, List.length_append, List.length_singleton]
      omega
    · rw [hother w' hw] at hl ⊢
      exact h.count w' hl

/-- The record gets a worker. -/
theorem Inv.pick (h : Inv s) (hsub : s.submitter.picked = []) (hb : Bound s r w) (hw : w ∈ s.pool.poolWorkersTV) :
    Inv { s with submitter := .enqueue r w, routed := s.routed ++ [r] } := by
  refine { h with bound := ?_, inOrder := ?_ }
  · intro r' w'
    refine ⟨fun h' => ?_, fun h' => ?_⟩
    · cases h'
    · cases h'
      exact ⟨hb, Or.inl hw⟩
  · intro tp
    obtain ⟨w₀, heq, hothers⟩ := h.inOrder tp
    rw [hsub, onTp_nil, List.append_nil] at heq
    refine ⟨w₀, ?_, hothers⟩
    rw [onTp_append, heq]
    rfl

/-- The submitting thread has no record on its way to an inbox, before and after. -/
theorem Inv.submit (h : Inv s) (sub : Submitter) (hsub : s.submitter.picked = []) (hpicked : sub.picked = [])
    (hb : ∀ r w, sub = .readByIdx r w → Bound s r w) : Inv { s with submitter := sub } := by
  refine { h with bound := fun r w => ⟨hb r w, fun h' => ?_⟩, inOrder := fun tp => ?_ }
  · have heq : sub = .enqueue r w := h'
    rw [heq] at hpicked
    cases hpicked
  · obtain ⟨w₀, heq, hothers⟩ := h.inOrder tp
    rw [hsub] at heq
    exact ⟨w₀, by rw [hpicked]; exact heq, hothers⟩

theorem Inv.submitNext (h : Inv s) (hg : Guarded hash s .submitNext) (hs : submitNext s = some s') : Inv s' := by
  obtain ⟨pool, sub, adding, draining, cancelling, routed, finished⟩ := s
  cases sub with
  | idle => cases hs
  | readRouting r =>
    simp only [Pool.submitNext] at hs
    split at hs
    · cases hs
      exact h.submit .idle rfl rfl fun r w h' => by cases h'
    · rename_i idx hidx
      cases hs
      refine h.submit (.readByIdx r idx) rfl rfl fun r' w h' => ?_
      cases h'
      refine ⟨Or.inr hidx, fun w' hl hheld => ?_⟩
      have hr := h.route w' hl r.tp hheld
      exact Option.some.inj (hr.symm.trans hidx)
  | readByIdx r idx =>
    simp only [Pool.submitNext] at hs
    split_ifs at hs with hidx
    · cases hs
      exact h.pick rfl ((h.bound r idx).1 rfl) ((h.byIdx idx).1 hidx)
    · cases hs
      exact h.submit .idle rfl rfl fun r w h' => by cases h'
  | enqueue r w =>
    simp only [Pool.submitNext] at hs
    cases hs
    exact h.enqueue rfl hg.1 hg.2.1 hg.2.2

theorem chooseHashed_mem {ids : List Nat} (h : Int64) (hne : ids ≠ []) : chooseHashed ids h ∈ ids := by
  have hpos : 0 < ids.length := List.length_pos_iff.2 hne
  have hlt : (h.toInt % ids.length).toNat < ids.length := by
    have := Int.emod_lt_of_pos h.toInt (Int.natCast_pos.2 hpos)
    have := Int.emod_nonneg h.toInt (Int.natCast_pos.2 hpos).ne'
    omega
  unfold chooseHashed
  rw [List.getD_eq_getElem?_getD, List.getElem?_eq_getElem hlt]
  exact List.getElem_mem hlt

/-- Routing picks a live worker, and a live worker of the table stays. -/
theorem routeHashed_spec (hash : TopicPartition → Int64) (p : WorkerPool) (tp : TopicPartition)
    (hne : p.poolWorkersTV ≠ []) :
    (routeHashed hash p tp).1 ∈ p.poolWorkersTV ∧
      AssocMap.lookup tp (routeHashed hash p tp).2 = some (routeHashed hash p tp).1 ∧
      (∀ tp', tp' ≠ tp → AssocMap.lookup tp' (routeHashed hash p tp).2 = AssocMap.lookup tp' p.poolRouting) ∧
      ∀ w ∈ p.poolWorkersTV, AssocMap.lookup tp p.poolRouting = some w → (routeHashed hash p tp).1 = w := by
  unfold routeHashed
  split
  · rename_i i hi
    split_ifs with hl
    · refine ⟨hl, hi, fun _ _ => rfl, fun w _ hw => ?_⟩
      exact Option.some.inj (hi.symm.trans hw)
    · refine ⟨chooseHashed_mem _ hne, by simp, fun tp' htp => by simp [htp], fun w hw h => ?_⟩
      rw [hi] at h
      cases h
      exact absurd hw hl
  · rename_i hi
    refine ⟨chooseHashed_mem _ hne, by simp, fun tp' htp => by simp [htp], fun w _ h => ?_⟩
    rw [hi] at h
    cases h

/-- A new entry of the routing table, for the worker that holds what there is of the
    partition. -/
theorem Inv.reroute (h : Inv s) (hsub : s.submitter = .idle) {routing : AssocMap TopicPartition Nat}
    (hothers : ∀ tp', tp' ≠ tp → AssocMap.lookup tp' routing = AssocMap.lookup tp' s.pool.poolRouting)
    (hw : AssocMap.lookup tp routing = some w)
    (hsame : ∀ w' ∈ s.pool.poolWorkersTV, AssocMap.lookup tp s.pool.poolRouting = some w' → w = w') :
    Inv { s with pool := { s.pool with poolRouting := routing } } := by
  refine { h with route := ?_, bound := ?_ }
  · intro w' hl tp' hheld
    have hr := h.route w' hl tp' hheld
    by_cases htp : tp' = tp
    · subst htp
      rw [← hsame w' hl hr]
      exact hw
    · exact (hothers tp' htp).trans hr
  · intro r' w'
    refine ⟨fun h' => ?_, fun h' => ?_⟩
    · rw [hsub] at h'
      cases h'
    · rw [hsub] at h'
      cases h'

theorem Inv.submitRecordHashedWith (h : Inv s) (hsub : s.submitter = .idle)
    (hg : Guarded hash s (.submitRecordHashedWith r)) : Inv (submitRecordHashedWith hash r s) := by
  obtain ⟨pool, sub, adding, draining, cancelling, routed, finished⟩ := s
  cases hsub
  unfold Pool.submitRecordHashedWith
  split_ifs with hne
  · exact h
  · obtain ⟨hl, hlookup, hothers, hsame⟩ := routeHashed_spec hash pool r.tp hne
    have hclear := hg hne
    simp only at hclear
    revert hl hlookup hothers hsame hclear
    generalize routeHashed hash pool r.tp = p
    obtain ⟨idx, routing⟩ := p
    intro hl hlookup hothers hsame hclear
    have hrouted := h.reroute rfl hothers hlookup hsame
    simp only [(h.byIdx idx).2 hl, if_true]
    have hpick := hrouted.pick (r := r) rfl
      ⟨Or.inr hlookup, fun w' hl' hheld => (hsame w' hl' (h.route w' hl' r.tp hheld)).symm⟩ hl
    refine hpick.enqueue rfl (fun hgone => ?_) (fun hc => ?_) hclear
    · have hs := (h.gone idx hgone).1
      rw [h.live idx hl] at hs
      cases hs
    · have hs := h.draining idx (List.mem_append_right _ hc)
      rw [h.live idx hl] at hs
      cases hs

/-! ## Membership -/

/-- A worker goes on with what it holds. -/
theorem Inv.goOn (h : Inv s) (hheld : x.held = (s.worker w).held)
    (hstop : x.workerStop = (s.worker w).workerStop)
    (hgone : x.workerLoop = .gone → x.workerStop = true ∧ x.held = [])
    (hcount : x.workerLoop ≠ .gone →
      x.workerProcessed + x.workerInbox.length + x.workerLoop.busy = x.workerSubmitted) :
    Inv (s.setWorker w x) := by
  have hsame : ∀ w', ((s.setWorker w x).worker w').held = (s.worker w').held := by
    intro w'
    rw [worker_setWorker]
    split_ifs with hw
    · rw [hw, hheld]
    · rfl
  refine { h.toMembers.setWorker hstop, h.toPlaced.setWorker hstop (hheld ▸ List.Sublist.refl _) with
           inOrder := ?_, gone := ?_, count := ?_ }
  · intro tp
    obtain ⟨w₀, heq, hothers⟩ := h.inOrder tp
    refine ⟨w₀, ?_, fun w' hne => ?_⟩
    · rw [hsame]
      exact heq
    · rw [hsame]
      exact hothers w' hne
  · intro w' hl
    rw [worker_setWorker] at hl ⊢
    split_ifs at hl ⊢
    · exact hgone hl
    · exact h.gone w' hl
  · intro w' hl
    rw [worker_setWorker] at hl ⊢
    split_ifs at hl ⊢
    · exact hcount hl
    · exact h.count w' hl

theorem Inv.addPoolWorker (h : Inv s) : Inv (addPoolWorker s) := by
  have hnext := h.nothing_held (Nat.le_refl s.pool.poolNextWorkerId)
  have hlive : s.pool.poolNextWorkerId ∉ s.pool.poolWorkersTV := fun hl => absurd (h.live_lt _ hl) (Nat.lt_irrefl _)
  have hstopped : (s.worker s.pool.poolNextWorkerId).workerStop = false :=
    Bool.eq_false_iff.2 fun hs => absurd (h.stopped_lt _ hs) (Nat.lt_irrefl _)
  have hmade := h.goOn (x := mkWorker []) hnext.symm hstopped.symm (fun hl => by cases hl) fun _ => rfl
  refine { hmade with live_lt := ?_, adding := ?_, adding_nodup := ?_, stopped_lt := ?_ }
  · exact fun w hw => Nat.lt_succ_of_lt (hmade.live_lt w hw)
  · intro w hw
    rcases List.mem_append.1 hw with hw | hw
    · obtain ⟨hlt, hrest⟩ := hmade.adding w hw
      exact ⟨Nat.lt_succ_of_lt hlt, hrest⟩
    · rw [List.mem_singleton.1 hw]
      refine ⟨Nat.lt_succ_self _, hlive, ?_⟩
      exact (congrArg Worker.workerStop (worker_update _ _ _ _)).trans (by rw [if_pos rfl]; rfl)
  · refine List.nodup_append.2 ⟨h.adding_nodup, List.nodup_singleton _, fun w hw w' hw' => ?_⟩
    rw [List.mem_singleton.1 hw']
    exact Nat.ne_of_lt (h.adding w hw).1
  · exact fun w hw => Nat.lt_succ_of_lt (hmade.stopped_lt w hw)

theorem Inv.publishWorker (h : Inv s) {idx : Nat} (hs : publishWorker idx s = some s') : Inv s' := by
  unfold Pool.publishWorker at hs
  split_ifs at hs with hidx
  cases hs
  obtain ⟨hlt, hnl, hstop⟩ := h.adding idx hidx
  have hheld := h.fresh idx hnl hstop
  have hmem : ∀ w, w ∈ s.pool.poolWorkersTV ++ [idx] ↔ w ∈ s.pool.poolWorkersTV ∨ w = idx := fun w => by
    rw [List.mem_append, List.mem_singleton]
  refine { h with byIdx := ?_, nodup := ?_, live_lt := ?_, live := ?_, adding := ?_, adding_nodup := ?_,
                  fresh := ?_, route := ?_, bound := ?_ }
  · intro w
    rw [hmem, List.mem_cons, h.byIdx w, or_comm]
  · refine List.nodup_append.2 ⟨h.nodup, List.nodup_singleton _, fun w hw w' hw' => ?_⟩
    rw [List.mem_singleton.1 hw']
    rintro rfl
    exact hnl hw
  · intro w hw
    rcases (hmem w).1 hw with hw | rfl
    · exact h.live_lt w hw
    · exact hlt
  · intro w hw
    rcases (hmem w).1 hw with hw | rfl
    · exact h.live w hw
    · exact hstop
  · intro w hw
    obtain ⟨hne, hw⟩ := h.adding_nodup.mem_erase_iff.1 hw
    obtain ⟨hlt', hnl', hstop'⟩ := h.adding w hw
    refine ⟨hlt', fun hl => ?_, hstop'⟩
    exact ((hmem w).1 hl).elim hnl' hne
  · exact h.adding_nodup.erase idx
  · intro w hl hs
    exact h.fresh w (fun hl' => hl ((hmem w).2 (Or.inl hl'))) hs
  · intro w hl tp hh
    rcases (hmem w).1 hl with hl | rfl
    · exact h.route w hl tp hh
    · rw [State.worker] at hheld hh
      rw [hheld] at hh
      exact absurd rfl hh
  · have hbound : ∀ r w, Bound s r w → Bound { s with
        pool := { s.pool with
          poolWorkersTV := s.pool.poolWorkersTV ++ [idx]
          poolByIdxTV := idx :: s.pool.poolByIdxTV }
        adding := s.adding.erase idx } r w := by
      rintro r w ⟨hb, hothers⟩
      refine ⟨hb, fun w' hl hh => ?_⟩
      rcases (hmem w').1 hl with hl | rfl
      · exact hothers w' hl hh
      · rw [State.worker] at hheld hh
        rw [hheld] at hh
        exact absurd rfl hh
    intro r w
    refine ⟨fun h' => hbound r w ((h.bound r w).1 h'), fun h' => ?_⟩
    obtain ⟨hb, hknown⟩ := (h.bound r w).2 h'
    exact ⟨hbound r w hb, hknown.imp_left fun hl => (hmem w).2 (Or.inl hl)⟩

/-- The entries of the other workers stay. -/
theorem lookup_filter_value (tp : TopicPartition) {idx w : Nat} (hne : w ≠ idx) :
    ∀ {m : AssocMap TopicPartition Nat}, AssocMap.lookup tp m = some w →
      AssocMap.lookup tp (m.filter fun e => e.2 ≠ idx) = some w
  | [], h => h
  | (tp', w') :: m, h => by
    rw [AssocMap.lookup] at h
    split_ifs at h with htp
    · cases h
      rw [List.filter_cons_of_pos (by simpa using hne), AssocMap.lookup, if_pos htp]
    · have hrest := lookup_filter_value tp hne h
      by_cases hw : w' = idx
      · rw [List.filter_cons_of_neg (by simpa using hw)]
        exact hrest
      · rw [List.filter_cons_of_pos (by simpa using hw), AssocMap.lookup, if_neg htp]
        exact hrest

/-- The pool after the first transaction of `removePoolWorker`. -/
theorem Inv.remove (h : Inv s) {idx : Nat} (hlast : s.pool.poolWorkersTV.getLast? = some idx) :
    Inv (removePoolWorker s) := by
  obtain ⟨live, hsplit⟩ := List.getLast?_eq_some_iff.1 hlast
  have hnodup := h.nodup
  rw [hsplit, List.nodup_append] at hnodup
  have hidx : idx ∈ s.pool.poolWorkersTV := List.mem_of_getLast? hlast
  have hremove : removePoolWorker s = { s with
      pool := { s.pool.update idx { s.worker idx with workerStop := true } with
        poolWorkersTV := live
        poolByIdxTV := s.pool.poolByIdxTV.filter fun i => i ≠ idx
        poolRouting := s.pool.poolRouting.filter fun e => e.2 ≠ idx }
      draining := s.draining ++ [idx] } := by
    unfold Pool.removePoolWorker
    rw [hlast, hsplit, List.dropLast_concat]
    rfl
  have hmem : ∀ w, w ∈ live ↔ w ∈ s.pool.poolWorkersTV ∧ w ≠ idx := by
    intro w
    rw [hsplit, List.mem_append, List.mem_singleton]
    refine ⟨fun hw => ⟨Or.inl hw, hnodup.2.2 w hw idx (List.mem_singleton_self idx)⟩, ?_⟩
    rintro ⟨hw | hw, hne⟩
    · exact hw
    · exact absurd hw hne
  have hworker : ∀ w, (removePoolWorker s).worker w =
      if w = idx then { s.worker idx with workerStop := true } else s.worker w := by
    intro w
    rw [hremove]
    exact worker_update _ _ _ _
  have hheld : ∀ w, ((removePoolWorker s).worker w).held = (s.worker w).held := by
    intro w
    rw [hworker]
    split_ifs with hw
    · rw [hw]
      rfl
    · rfl
  have hstop : ∀ w, w ≠ idx → ((removePoolWorker s).worker w).workerStop = (s.worker w).workerStop := by
    intro w hw
    rw [hworker, if_neg hw]
  have hstopped : ((removePoolWorker s).worker idx).workerStop = true := by
    rw [hworker, if_pos rfl]
  have hstill : ∀ w, (s.worker w).workerStop = true → ((removePoolWorker s).worker w).workerStop = true := by
    intro w hs
    by_cases hw : w = idx
    · rw [hw]
      exact hstopped
    · rw [hstop w hw]
      exact hs
  have hbound : ∀ r w, Bound s r w → Bound (removePoolWorker s) r w := by
    rintro r w ⟨hb, hothers⟩
    refine ⟨?_, fun w' hl hh => ?_⟩
    · by_cases hw : w = idx
      · rw [hw]
        exact Or.inl hstopped
      · rw [hstop w hw, hremove]
        exact hb.imp_right (lookup_filter_value r.tp hw)
    · rw [hheld] at hh
      rw [hremove] at hl
      exact hothers w' ((hmem w').1 hl).1 hh
  rw [hremove] at hworker hheld hstop hstopped hstill hbound ⊢
  refine { h with byIdx := ?_, nodup := hnodup.1, live_lt := ?_, live := ?_, adding := ?_, stopped_lt := ?_,
                  fresh := ?_, route := ?_, bound := ?_, inOrder := ?_, gone := ?_, count := ?_,
                  draining := ?_, cancelling := ?_ }
  · intro w
    rw [hmem, List.mem_filter, h.byIdx w]
    simp
  · exact fun w hw => h.live_lt w ((hmem w).1 hw).1
  · intro w hw
    obtain ⟨hl, hne⟩ := (hmem w).1 hw
    rw [hstop w hne]
    exact h.live w hl
  · intro w hw
    obtain ⟨hlt, hnl, hs⟩ := h.adding w hw
    refine ⟨hlt, fun hl => hnl ((hmem w).1 hl).1, ?_⟩
    rw [hstop w fun hw' => hnl (hw' ▸ hidx)]
    exact hs
  · intro w hs
    by_cases hw : w = idx
    · rw [hw]
      exact h.live_lt idx hidx
    · rw [hstop w hw] at hs
      exact h.stopped_lt w hs
  · intro w hw
    rw [List.mem_append, List.mem_append, List.mem_singleton] at hw
    rcases hw with (hw | rfl) | hw
    · exact hstill w (h.draining w (List.mem_append_left _ hw))
    · exact hstopped
    · exact hstill w (h.draining w (List.mem_append_right _ hw))
  · intro w hnl hs
    by_cases hw : w = idx
    · rw [hw, hstopped] at hs
      cases hs
    · rw [hstop w hw] at hs
      rw [hheld]
      exact h.fresh w (fun hl => hnl ((hmem w).2 ⟨hl, hw⟩)) hs
  · intro w hl tp hh
    rw [hheld] at hh
    obtain ⟨hl, hne⟩ := (hmem w).1 hl
    exact lookup_filter_value tp hne (h.route w hl tp hh)
  · intro r w
    refine ⟨fun h' => hbound r w ((h.bound r w).1 h'), fun h' => ?_⟩
    obtain ⟨hb, hknown⟩ := (h.bound r w).2 h'
    refine ⟨hbound r w hb, ?_⟩
    by_cases hw : w = idx
    · rw [hw]
      exact Or.inr hstopped
    · rw [hstop w hw]
      exact hknown.imp_left fun hl => (hmem w).2 ⟨hl, hw⟩
  · intro w hw
    rw [hheld]
    exact h.cancelling w hw
  · intro tp
    obtain ⟨w, heq, hothers⟩ := h.inOrder tp
    refine ⟨w, ?_, fun w' hne => ?_⟩
    · rw [hheld]
      exact heq
    · rw [hheld]
      exact hothers w' hne
  · intro w hl
    rw [hheld]
    rw [hworker] at hl
    split_ifs at hl with hw
    · rw [hw]
      exact ⟨hstopped, (h.gone idx hl).2⟩
    · obtain ⟨hs, hh⟩ := h.gone w hl
      exact ⟨hstill w hs, hh⟩
  · intro w hl
    rw [hworker] at hl ⊢
    split_ifs at hl ⊢
    · exact h.count idx hl
    · exact h.count w hl

theorem Inv.removePoolWorker (h : Inv s) : Inv (removePoolWorker s) := by
  cases hlast : s.pool.poolWorkersTV.getLast? with
  | none =>
    unfold Pool.removePoolWorker
    rw [hlast]
    exact h
  | some idx => exact h.remove hlast

theorem held_eq_nil (hinbox : x.workerInbox = []) (hbusy : x.workerLoop.busy = 0) : x.held = [] := by
  unfold Worker.held
  split
  · rename_i r hr
    rw [hr] at hbusy
    cases hbusy
  · exact hinbox

theorem Inv.drained (h : Inv s) (hs : drained w s = some s') : Inv s' := by
  unfold Pool.drained at hs
  split_ifs at hs with hw
  cases hs
  obtain ⟨hdraining, hcounts⟩ := hw
  have hstop := h.draining w (List.mem_append_left _ hdraining)
  have hheld : (s.worker w).held = [] := by
    by_cases hgone : (s.worker w).workerLoop = .gone
    · exact (h.gone w hgone).2
    · have hcount := h.count w hgone
      have hcounts' : (s.worker w).workerSubmitted ≤ (s.worker w).workerProcessed := hcounts
      refine held_eq_nil (List.length_eq_zero_iff.1 ?_) ?_
      · omega
      · omega
  refine { h with draining := ?_, cancelling := ?_ }
  · intro w' hw'
    rw [List.mem_append, List.mem_append, List.mem_singleton] at hw'
    rcases hw' with hw' | hw' | rfl
    · exact h.draining w' (List.mem_append_left _ (List.mem_of_mem_erase hw'))
    · exact h.draining w' (List.mem_append_right _ hw')
    · exact hstop
  · intro w' hw'
    rw [List.mem_append, List.mem_singleton] at hw'
    rcases hw' with hw' | rfl
    · exact h.cancelling w' hw'
    · exact hheld

theorem Inv.cancelWorker (h : Inv s) (hs : cancelWorker w s = some s') : Inv s' := by
  unfold Pool.cancelWorker at hs
  split_ifs at hs with hw
  cases hs
  have hheld := h.cancelling w hw
  have hinbox : (s.worker w).workerInbox = [] := by
    unfold Worker.held at hheld
    split at hheld
    · cases hheld
    · exact hheld
  have hstop := h.draining w (List.mem_append_right _ hw)
  have hgone := h.goOn (w := w) (x := { s.worker w with workerLoop := .gone })
    (Eq.trans hinbox hheld.symm) rfl (fun _ => ⟨hstop, hinbox⟩) fun hne => absurd rfl hne
  refine { hgone with draining := ?_, cancelling := ?_ }
  · intro w' hw'
    rcases List.mem_append.1 hw' with hw' | hw'
    · exact hgone.draining w' (List.mem_append_left _ hw')
    · exact hgone.draining w' (List.mem_append_right _ (List.mem_of_mem_erase hw'))
  · exact fun w' hw' => hgone.cancelling w' (List.mem_of_mem_erase hw')

/-! ## The loop of a worker -/

/-- The engine is done with a record. -/
def State.fed (s : State) (w : Nat) (r : WorkRecord) : State :=
  { s.setWorker w { s.worker w with workerLoop := .counting } with finished := s.finished ++ [r] }

/-- A record that is fed is the first its worker holds, and the next of its partition. -/
theorem Inv.fed (h : Inv s) (hloop : (s.worker w).workerLoop = .feeding r) : Inv (s.fed w r) := by
  have hheld : (s.worker w).held = r :: (s.worker w).workerInbox := by
    unfold Worker.held
    rw [hloop]
  have hself : (s.fed w r).worker w = { s.worker w with workerLoop := .counting } :=
    (worker_setWorker _ _ _ _).trans (if_pos rfl)
  have hother : ∀ w', w' ≠ w → (s.fed w r).worker w' = s.worker w' :=
    fun w' hne => (worker_setWorker _ _ _ _).trans (if_neg hne)
  have hsub : ({ s.worker w with workerLoop := .counting } : Worker).held.Sublist (s.worker w).held := by
    rw [hheld]
    exact List.sublist_cons_self _ _
  have hless := fun w' => held_setWorker hsub w'
  refine { h.toMembers.setWorker (x := { s.worker w with workerLoop := .counting }) rfl,
           h.toPlaced.setWorker (x := { s.worker w with workerLoop := .counting }) rfl hsub with
           inOrder := ?_, gone := ?_, count := ?_ }
  · intro tp
    obtain ⟨w₀, heq, hothers⟩ := h.inOrder tp
    by_cases htp : r.tp = tp
    · subst htp
      have hw₀ : w₀ = w := by
        by_contra hne
        have hnil := hothers w (Ne.symm hne)
        rw [hheld, onTp_cons_self] at hnil
        cases hnil
      subst hw₀
      refine ⟨w₀, ?_, fun w' hne => onTp_sublist (hless w') (hothers w' hne)⟩
      rw [hself]
      refine heq.trans ?_
      rw [hheld, onTp_cons_self]
      simp [State.fed, State.setWorker, Worker.held, onTp_cons_self]
    · refine ⟨w₀, ?_, fun w' hne => onTp_sublist (hless w') (hothers w' hne)⟩
      have hsame : onTp tp ((s.fed w r).worker w₀).held = onTp tp (s.worker w₀).held := by
        by_cases hw : w₀ = w
        · rw [hw, hself, hheld, onTp_cons_ne _ htp]
          rfl
        · rw [hother w₀ hw]
      rw [hsame]
      refine heq.trans ?_
      simp [State.fed, State.setWorker, onTp_cons_ne _ htp]
  · intro w' hl
    have hne : w' ≠ w := by
      rintro rfl
      rw [hself] at hl
      cases hl
    rw [hother w' hne] at hl ⊢
    exact h.gone w' hl
  · intro w' hl
    by_cases hw : w' = w
    · rw [hw, hself]
      have hcount := h.count w (by rw [hloop]; intro h'; cases h')
      rw [hloop] at hcount
      exact hcount
    · rw [hother w' hw] at hl ⊢
      exact h.count w' hl

theorem Inv.workerLoop (h : Inv s) (hg : Guarded hash s (.workerLoop w)) (hs : workerLoop w s = some s') :
    Inv s' := by
  have hcount := h.count w
  unfold Pool.workerLoop at hs
  rw [← State.worker] at hs
  simp only [Guarded] at hg
  generalize hx : s.worker w = x at hs hg hcount
  obtain ⟨owned, inbox, stop, processed, submitted, loop⟩ := x
  cases loop with
  | waiting =>
    cases inbox with
    | nil =>
      simp only at hs
      split_ifs at hs with hstop
      cases hs
      exact h.goOn (by rw [hx]; rfl) (by rw [hx]) (fun _ => ⟨hstop, rfl⟩) fun hne => absurd rfl hne
    | cons r rest =>
      have howns : Worker.owns ⟨owned, r :: rest, stop, processed, submitted, .waiting⟩ r.tp = true := hg
      simp only [howns, if_true] at hs
      cases hs
      refine h.goOn (by rw [hx]; rfl) (by rw [hx]) (fun hl => by cases hl) fun _ => ?_
      have := hcount (by intro hl; cases hl)
      simp only [Loop.busy, List.length_cons] at this ⊢
      omega
  | feeding r =>
    cases hs
    have hfed := h.fed (w := w) (r := r) (by rw [hx])
    rw [State.fed, hx] at hfed
    exact hfed
  | counting =>
    cases hs
    refine h.goOn (by rw [hx]; rfl) (by rw [hx]) (fun hl => by cases hl) fun _ => ?_
    have := hcount (by intro hl; cases hl)
    simp only [Loop.busy] at this ⊢
    omega
  | gone => cases hs

/-! ## Runs -/

theorem step_inv (h : Inv s) (hg : Guarded hash s e) (hs : step hash s e = some s') : Inv s' := by
  cases e with
  | submitRecord topic key val ts part =>
    simp only [step] at hs
    split_ifs at hs with hidle
    cases hs
    have hsub := h.submit (.readRouting ⟨topic, key, val, ts, part, s.pool.poolNextOff, []⟩)
      (by rw [hidle]; rfl) rfl fun r w h' => by cases h'
    exact { hsub with }
  | submitNext => exact h.submitNext hg hs
  | submitRecordHashedWith r =>
    simp only [step] at hs
    split_ifs at hs with hidle
    cases hs
    exact h.submitRecordHashedWith hidle hg
  | addPoolWorker =>
    cases hs
    exact h.addPoolWorker
  | publishWorker idx => exact h.publishWorker hs
  | removePoolWorker =>
    cases hs
    exact h.removePoolWorker
  | drained w => exact h.drained hs
  | cancelWorker w => exact h.cancelWorker hs
  | workerLoop w => exact h.workerLoop hg hs

theorem inv_init (perWorkerOwnership : List (List TopicPartition)) : Inv (State.init perWorkerOwnership) where
  byIdx _ := Iff.rfl
  nodup := List.nodup_range
  live_lt _ hw := List.mem_range.1 hw
  live _ _ := rfl
  adding _ hw := absurd hw List.not_mem_nil
  adding_nodup := List.nodup_nil
  stopped_lt _ hs := by cases hs
  fresh _ _ _ := rfl
  route _ _ _ hh := absurd rfl hh
  bound _ _ := ⟨fun h => (by cases h), fun h => (by cases h)⟩
  inOrder _ := ⟨0, rfl, fun _ _ => rfl⟩
  gone _ hl := by cases hl
  count _ _ := rfl
  draining _ hw := absurd hw List.not_mem_nil
  cancelling _ hw := absurd hw List.not_mem_nil

/-- A loop that cannot go on has nothing to do. -/
theorem Inv.held_of_rest (h : Inv s) (hrest : Pool.workerLoop w s = none) : (s.worker w).held = [] := by
  unfold Pool.workerLoop at hrest
  rw [← State.worker] at hrest
  have hgone := h.gone w
  generalize s.worker w = x at hrest hgone ⊢
  obtain ⟨owned, inbox, stop, processed, submitted, loop⟩ := x
  cases loop with
  | waiting =>
    cases inbox with
    | nil => rfl
    | cons r rest => cases hrest
  | feeding r => cases hrest
  | counting => cases hrest
  | gone => exact (hgone rfl).2

theorem held_of_feeding (h : x.workerLoop = .feeding r) : onTp r.tp x.held ≠ [] := by
  unfold Worker.held
  rw [h, onTp_cons_self]
  exact List.cons_ne_nil _ _

theorem Inv.delivered (h : Inv s) : Delivered s where
  inOrder := h.inOrder
  alone := by
    intro w w' r r' hw hw' htp
    obtain ⟨w₀, -, hothers⟩ := h.inOrder r.tp
    have hw₀ : w = w₀ := by
      by_contra hne
      exact held_of_feeding hw (hothers w hne)
    have hw₀' : w' = w₀ := by
      by_contra hne
      have hnil := hothers w' hne
      rw [htp] at hnil
      exact held_of_feeding hw' hnil
    rw [hw₀, hw₀']
  atRest := by
    intro hpicked hrest tp
    obtain ⟨w, heq, -⟩ := h.inOrder tp
    rw [heq, h.held_of_rest (hrest w), hpicked]
    simp

/-- **Every partition is delivered**, over every run. -/
theorem delivered_in_order {perWorkerOwnership : List (List TopicPartition)} {es : List Event}
    (hg : Along (step hash) (Guarded hash) (State.init perWorkerOwnership) es)
    (hrun : run (step hash) (State.init perWorkerOwnership) es = some s) : Delivered s :=
  (run_invariant (fun _ _ _ hi hP hs => step_inv hi hP hs) (inv_init perWorkerOwnership) hg hrun).delivered

instance (s : State) (w : Nat) (tp : TopicPartition) : Decidable (Clear s w tp) :=
  inferInstanceAs (Decidable (∀ w' < _, _ → _ → _))

instance decidableGuarded (hash : TopicPartition → Int64) (s : State) : ∀ e, Decidable (Guarded hash s e)
  | .submitNext =>
    match h : s.submitter with
    | .enqueue r w => decidable_of_iff
        ((s.worker w).workerLoop ≠ .gone ∧ w ∉ s.cancelling ∧ Clear s w r.tp) (by simp only [Guarded, h])
    | .idle => isTrue (by simp only [Guarded, h])
    | .readRouting r => isTrue (by simp only [Guarded, h])
    | .readByIdx r idx => isTrue (by simp only [Guarded, h])
  | .submitRecordHashedWith r =>
    inferInstanceAs (Decidable (s.pool.poolWorkersTV ≠ [] → Clear s (routeHashed hash s.pool r.tp).1 r.tp))
  | .workerLoop w =>
    match hl : (s.worker w).workerLoop, hi : (s.worker w).workerInbox with
    | .waiting, r :: _ => decidable_of_iff ((s.worker w).owns r.tp = true) (by simp only [Guarded, hl, hi])
    | .waiting, [] => isTrue (by simp only [Guarded, hl, hi])
    | .feeding _, _ => isTrue (by simp only [Guarded, hl])
    | .counting, _ => isTrue (by simp only [Guarded, hl])
    | .gone, _ => isTrue (by simp only [Guarded, hl])
  | .submitRecord _ _ _ _ _ => isTrue trivial
  | .addPoolWorker => isTrue trivial
  | .publishWorker _ => isTrue trivial
  | .removePoolWorker => isTrue trivial
  | .drained _ => isTrue trivial
  | .cancelWorker _ => isTrue trivial

/-- The `n`-th record of a partition. -/
def someRecord (n : Int) : WorkRecord := ⟨"orders", none, [1], n, 0, n, []⟩

/-- The worker of the partition is removed after it has processed a record. -/
def removeAfterwards : List Event :=
  [.submitRecordHashedWith (someRecord 0), .workerLoop 1, .workerLoop 1, .workerLoop 1, .removePoolWorker,
    .drained 1, .cancelWorker 1, .submitRecordHashedWith (someRecord 1), .workerLoop 0, .workerLoop 0]

theorem delivered_in_order_remove :
    ∃ s, run (step fun _ => 1) (State.init [[], []]) removeAfterwards = some s ∧
      s.finished = [someRecord 0, someRecord 1] ∧ Delivered s := by
  have hview : (run (step fun _ => 1) (State.init [[], []]) removeAfterwards).map State.finished =
      some [someRecord 0, someRecord 1] := by decide
  obtain ⟨s, hs, hfinished⟩ := Option.map_eq_some_iff.1 hview
  exact ⟨s, hs, hfinished, delivered_in_order (by decide) hs⟩

/-- The worker of the partition is removed while it processes a record, and the next
    record goes to another one. -/
def removeMeanwhile : List Event :=
  [.submitRecordHashedWith (someRecord 0), .workerLoop 1, .removePoolWorker,
    .submitRecordHashedWith (someRecord 1), .workerLoop 0]

/-- **Two workers process one partition** at the same time. -/
theorem fed_twice_at_once :
    ∃ s, run (step fun _ => 1) (State.init [[], []]) removeMeanwhile = some s ∧
      (s.worker 0).workerLoop = .feeding (someRecord 1) ∧ (s.worker 1).workerLoop = .feeding (someRecord 0) ∧
      (someRecord 0).tp = (someRecord 1).tp ∧ ¬ Delivered s := by
  have hview : (run (step fun _ => 1) (State.init [[], []]) removeMeanwhile).map
      (fun s => ((s.worker 0).workerLoop, (s.worker 1).workerLoop)) =
      some (.feeding (someRecord 1), .feeding (someRecord 0)) := by decide
  obtain ⟨s, hs, hloops⟩ := Option.map_eq_some_iff.1 hview
  obtain ⟨h0, h1⟩ := Prod.mk.inj hloops
  exact ⟨s, hs, h0, h1, rfl, fun hd => absurd (hd.alone 0 1 _ _ h0 h1 rfl) (by decide)⟩

end Wireform.Kafka.Streams.Pool

/-
  The batches of a partition are handed over in order.

  The batches of a partition become ready in the order of their allocation.  A turn of
  the sender hands them to the pipes in rounds: in order, and with no earlier one left
  in the retry queue.

  * `Ordered`: what holds of the sender between its jobs;
  * `step_ordered`: one step, with `Orderly` for what the code does not look after: a
    sort of sequence numbers that wrap, and a retry that is queued while a later batch
    is on its way;
  * `handed_inOrder`: over a run the batches are handed over in order;
  * `wrapped_overtakes`: after a wrap they are not.
-/
import Wireform.Kafka.Sender.Order

namespace Wireform.Kafka.Sender

open Transition

variable {cfg : Config} {env : Env} {s s' t : SenderState} {j : Job} {r : SenderState × List Job}
  {x y b : ProducerBatch} {alloc : ProducerBatch → Nat} {leader : Broker}

/-- The batches that wait to be tried again. -/
def SenderState.queued (s : SenderState) : List ProducerBatch := s.senderRetryQueue.map RetryEntry.reBatch

/-! ## The pipe of a partition -/

/-- The jobs whose batches have no pipe yet. -/
def Job.waits : Job → Bool
  | .group .. | .pool .. => true
  | _ => false

/-- The pipe of a job is that of its partitions, among the pipes of a pool. -/
def Job.OnLane (cfg : Config) (ids : List PipeId) : Job → Prop
  | .round pipe batches => ∀ b ∈ batches, pipe = ids.getD (cfg.hash b.batchTopicPartition % ids.length) 0
  | .count pipe valid => ∀ b ∈ valid, pipe = ids.getD (cfg.hash b.batchTopicPartition % ids.length) 0
  | .write pipe valid => ∀ b ∈ valid, pipe = ids.getD (cfg.hash b.batchTopicPartition % ids.length) 0
  | _ => True

/-- The batches of a turn wait for the pool of the broker, or are on its pipes. -/
inductive Lanes (cfg : Config) (js : List Job) : Prop
  | waiting : (∀ j ∈ js, j.pipe = none) → (js.filter Job.waits).length ≤ 1 → Lanes cfg js
  | pooled (ids : List PipeId) : (∀ j ∈ js, j.waits = false) → (∀ j ∈ js, j.OnLane cfg ids) → Lanes cfg js

variable {rest : List Job} {ids : List PipeId}

theorem onLane_of_pipe (h : j.pipe = none) : j.OnLane cfg ids := by
  cases j with
  | round => cases h
  | count => cases h
  | write => cases h
  | _ => trivial

theorem isBatch_lane (h : j.isBatch = true) : j.waits = false ∧ j.pipe = none := by
  cases j with
  | retryOrFail => exact ⟨rfl, rfl⟩
  | enqueueRetry => exact ⟨rfl, rfl⟩
  | failBatch => exact ⟨rfl, rfl⟩
  | succeed => exact ⟨rfl, rfl⟩
  | _ => cases h

/-- Jobs without a pipe and without batches that wait for one change nothing. -/
theorem Lanes.next {new rest : List Job} (h : Lanes cfg (j :: rest))
    (hnew : ∀ j' ∈ new, j'.waits = false ∧ j'.pipe = none) : Lanes cfg (new ++ rest) := by
  cases h with
  | waiting hpipe honce =>
    refine .waiting (fun j' hj' => ?_) ?_
    · rcases List.mem_append.1 hj' with hj' | hj'
      · exact (hnew j' hj').2
      · exact hpipe j' (List.mem_cons_of_mem _ hj')
    · have hnone : new.filter Job.waits = [] :=
        List.filter_eq_nil_iff.2 fun j' hj' => by rw [(hnew j' hj').1]; exact Bool.false_ne_true
      rw [List.filter_append, hnone, List.nil_append]
      exact le_trans ((List.sublist_cons_self j rest).filter _).length_le honce
  | pooled ids hwaits hlane =>
    refine .pooled ids (fun j' hj' => ?_) fun j' hj' => ?_
    · rcases List.mem_append.1 hj' with hj' | hj'
      · exact (hnew j' hj').1
      · exact hwaits j' (List.mem_cons_of_mem _ hj')
    · rcases List.mem_append.1 hj' with hj' | hj'
      · exact onLane_of_pipe (hnew j' hj').2
      · exact hlane j' (List.mem_cons_of_mem _ hj')

/-- A job that has a pipe goes on on it. -/
theorem Lanes.onPipe {new rest : List Job} (h : Lanes cfg (j :: rest)) (hj : j.pipe ≠ none)
    (hnew : ∀ j' ∈ new, j'.waits = false ∧ ∀ ids, j.OnLane cfg ids → j'.OnLane cfg ids) : Lanes cfg (new ++ rest) := by
  cases h with
  | waiting hpipe honce => exact absurd (hpipe j List.mem_cons_self) hj
  | pooled ids hwaits hlane =>
    refine .pooled ids (fun j' hj' => ?_) fun j' hj' => ?_
    · rcases List.mem_append.1 hj' with hj' | hj'
      · exact (hnew j' hj').1
      · exact hwaits j' (List.mem_cons_of_mem _ hj')
    · rcases List.mem_append.1 hj' with hj' | hj'
      · exact (hnew j' hj').2 ids (hlane j List.mem_cons_self)
      · exact hlane j' (List.mem_cons_of_mem _ hj')

/-- The one job that waits is followed by others. -/
theorem Lanes.waits (h : Lanes cfg (j :: rest)) (hj : j.waits = true) :
    (∀ j' ∈ rest, j'.pipe = none) ∧ ∀ j' ∈ rest, j'.waits = false := by
  cases h with
  | waiting hpipe honce =>
    refine ⟨fun j' hj' => hpipe j' (List.mem_cons_of_mem _ hj'), fun j' hj' => ?_⟩
    rw [List.filter_cons, if_pos hj, List.length_cons] at honce
    have hnil : rest.filter Job.waits = [] := List.length_eq_zero_iff.1 (by omega)
    exact Bool.eq_false_iff.2 (List.filter_eq_nil_iff.1 hnil j' hj')
  | pooled ids hwaits hlane =>
    have hfalse := hwaits j List.mem_cons_self
    rw [hj] at hfalse
    cases hfalse

theorem poolRounds_lane {bs : List ProducerBatch} {j' : Job} (hj : j' ∈ poolRounds cfg ids bs) :
    j'.waits = false ∧ j'.OnLane cfg ids := by
  obtain ⟨e, he, hr⟩ := List.mem_flatMap.1 hj
  obtain ⟨bs', hbs', rfl⟩ := List.mem_map.1 hr
  refine ⟨rfl, fun b hb => ?_⟩
  have hin := mem_of_mem_rounds hbs' hb
  rw [eq_valuesOf_of_mem he] at hin
  obtain ⟨k, hk, hb'⟩ := List.mem_map.1 hin
  obtain ⟨hkin, hkey⟩ := List.mem_filter.1 hk
  obtain ⟨c, -, rfl⟩ := List.mem_map.1 hkin
  cases hb'
  rw [← of_decide_eq_true hkey]

theorem runSender_lanes (hj : j.sends = true) (hbroker : j.ToBroker leader)
    (hl : Lanes cfg (j :: rest)) (h : runSender cfg env s j = some r) : Lanes cfg (r.2 ++ rest) := by
  have hretry : ∀ (why : Failure) (bs : List ProducerBatch), ∀ j' ∈ bs.map (Job.retryOrFail why),
      j'.waits = false ∧ j'.pipe = none := by
    intro why bs j' hj'
    obtain ⟨b, -, rfl⟩ := List.mem_map.1 hj'
    exact ⟨rfl, rfl⟩
  cases j with
  | group todo known unknown =>
    obtain ⟨hpipe, hwaits⟩ := hl.waits rfl
    have hnone : rest.filter Job.waits = [] :=
      List.filter_eq_nil_iff.2 fun j' hj' => by rw [hwaits j' hj']; exact Bool.false_ne_true
    cases todo with
    | nil =>
      cases h
      refine .waiting (fun j' hj' => ?_) ?_
      · rcases List.mem_append.1 hj' with hj' | hj'
        · rcases List.mem_append.1 hj' with hj' | hj'
          · exact (hretry .unknownLeader unknown j' hj').2
          · obtain ⟨e, -, rfl⟩ := List.mem_map.1 hj'
            rfl
        · exact hpipe j' hj'
      · have hnew : (unknown.map (Job.retryOrFail .unknownLeader)).filter Job.waits = [] :=
          List.filter_eq_nil_iff.2 fun j' hj' => by
            rw [(hretry .unknownLeader unknown j' hj').1]
            exact Bool.false_ne_true
        rw [List.filter_append, List.filter_append, hnew, hnone, List.append_nil, List.nil_append]
        refine le_trans (List.length_filter_le _ _) ?_
        rw [List.length_map]
        exact length_groups_le_one hbroker
    | cons b todo =>
      have hone : ∀ todo known unknown, Lanes cfg ([Job.group todo known unknown] ++ rest) := by
        intro todo known unknown
        refine .waiting (List.forall_mem_cons.2 ⟨rfl, hpipe⟩) ?_
        rw [List.filter_append, hnone, List.append_nil]
        exact List.length_filter_le _ _
      simp only [runSender] at h
      split at h
      · cases h
        exact hone _ _ _
      · cases h
        exact hone _ _ _
  | pool a batches =>
    obtain ⟨hpipe, hwaits⟩ := hl.waits rfl
    have hpooled : ∀ ids, Lanes cfg (poolRounds cfg ids batches ++ rest) := by
      intro ids
      refine .pooled ids (fun j' hj' => ?_) fun j' hj' => ?_
      · rcases List.mem_append.1 hj' with hj' | hj'
        · exact (poolRounds_lane hj').1
        · exact hwaits j' hj'
      · rcases List.mem_append.1 hj' with hj' | hj'
        · exact (poolRounds_lane hj').2
        · exact onLane_of_pipe (hpipe j' hj')
    simp only [runSender] at h
    split at h
    · cases h
      exact hpooled _
    · split at h
      · cases h
        exact hpooled _
      · cases h
        exact hl.next (hretry .openPipe batches)
  | round pipe batches =>
    cases h
    refine hl.onPipe (fun hnone => by cases hnone) fun j' hj' => ?_
    split at hj'
    · cases hj'
    · rw [List.mem_singleton.1 hj']
      exact ⟨rfl, fun ids hlane b hb => hlane b (List.mem_filter.1 hb).1⟩
  | count pipe valid =>
    cases h
    exact hl.onPipe (fun hnone => by cases hnone) (List.forall_mem_singleton.2 ⟨rfl, fun ids hlane => hlane⟩)
  | write pipe valid =>
    simp only [runSender] at h
    split at h
    · split at h
      · cases h
        exact hl.onPipe (fun hnone => by cases hnone) (List.forall_mem_nil _)
      · cases h
    · cases h
  | loop => cases hj
  | poll => cases hj
  | takeDue => cases hj
  | drain => cases hj
  | hold => cases hj
  | notBusy => cases hj
  | _ => cases h

/-! ## The invariant -/

/-- Between the jobs of the sender each partition is in order: in the batches on their
    way, in those behind them, and no earlier one is in the retry queue. -/
structure Ordered (cfg : Config) (alloc : ProducerBatch → Nat) (leader : Broker) (s : SenderState) : Prop where
  turn : TurnAt s.sender
  queue : ∀ x ∈ s.queued, ∀ j ∈ s.sender, ∀ y ∈ j.toHand, ¬ Earlier alloc x y
  pass : InOrder alloc (s.sender.flatMap Job.lined)
  fresh : InOrder alloc s.fresh
  later : ∀ f ∈ s.fresh, ∀ x ∈ s.old, ¬ Earlier alloc f x
  rounds : ∀ j ∈ s.sender, j.Round
  leaders : ∀ j ∈ s.sender, j.ToBroker leader
  lanes : Lanes cfg s.sender

/-- What the code does not look after: a sort of sequence numbers that have wrapped, and
    a retry that is queued while a later batch of the partition is on its way. -/
def OrderlyJob (alloc : ProducerBatch → Nat) (s : SenderState) : Job → Prop
  | .hold due _ => Unwrapped alloc due
  | .enqueueRetry _ batch => ∀ j ∈ s.sender, ∀ y ∈ j.toHand, ¬ Earlier alloc batch y
  | _ => True

/-- Batches become ready in the order of their allocation. -/
def ReadyInOrder (alloc : ProducerBatch → Nat) (s : SenderState) : Event → Prop
  | .ready batch => ∀ x ∈ s.old ++ s.fresh, ¬ Earlier alloc batch x
  | .run .. => True

def Orderly (alloc : ProducerBatch → Nat) (s : SenderState) : Event → Prop
  | .ready batch => ReadyInOrder alloc s (.ready batch)
  | .run thread env => ∀ j ∈ s.next (.run thread env), OrderlyJob alloc s j

/-- The one broker leads every partition whose leader is known. -/
def OnBroker (leader : Broker) : Event → Prop
  | .ready _ => True
  | .run _ env => ∀ b ∈ env.leader, b = leader

theorem Ordered.ready (h : Ordered cfg alloc leader s) (hb : ReadyInOrder alloc s (.ready b)) :
    Ordered cfg alloc leader { s with accumulator := s.accumulator ++ [b] } := by
  have hfresh : SenderState.fresh { s with accumulator := s.accumulator ++ [b] } = s.fresh ++ [b] := by
    unfold SenderState.fresh
    rw [List.append_assoc]
  refine ⟨h.turn, h.queue, h.pass, ?_, ?_, h.rounds, h.leaders, h.lanes⟩
  · rw [hfresh]
    refine List.pairwise_append.2 ⟨h.fresh, List.pairwise_singleton _ _, fun x hx y hy => ?_⟩
    rw [List.mem_singleton.1 hy]
    exact hb x (List.mem_append_right _ hx)
  · rw [hfresh]
    intro f hf x hx
    rcases List.mem_append.1 hf with hf | hf
    · exact h.later f hf x hx
    · rw [List.mem_singleton.1 hf]
      exact hb x (List.mem_append_left _ hx)

/-- The batches that come behind, after a job that took the first of them. -/
theorem Ordered.behind (h : Ordered cfg alloc leader s) (hdid : Did cfg env s s' j r)
    (hfresh : s.fresh = j.fresh ++ s'.fresh) :
    InOrder alloc s'.fresh ∧ ∀ f ∈ s'.fresh, ∀ x ∈ s'.old, ¬ Earlier alloc f x := by
  have hin := h.fresh
  rw [hfresh] at hin
  obtain ⟨-, hrest, hcross⟩ := List.pairwise_append.1 hin
  refine ⟨hrest, fun f hf x hx hlt => ?_⟩
  obtain ⟨y, hy, he⟩ := old_step hdid hx
  have hlt' := (earlier_congr rfl he).1 hlt
  rcases hy with hy | hy
  · refine h.later f ?_ y hy hlt'
    rw [hfresh]
    exact List.mem_append_right _ hf
  · exact hcross y hy f hf hlt'

theorem runBatch_queued (h : runBatch cfg env s j = some r) :
    ∀ x ∈ r.1.queued, x ∈ s.queued ∨ j.requeued = some x := by
  intro x hx
  cases j with
  | retryOrFail why b =>
    simp only [runBatch] at h
    split at h
    · cases h
      exact Or.inl hx
    · cases h
      exact Or.inl hx
  | enqueueRetry due b =>
    cases h
    obtain ⟨e, he, rfl⟩ := List.mem_map.1 hx
    rcases List.mem_append.1 he with he | he
    · exact Or.inl (List.mem_map_of_mem he)
    · rw [List.mem_singleton.1 he]
      exact Or.inr rfl
  | failBatch why b =>
    cases h
    unfold SenderState.queued at hx
    rw [failBatch_queue] at hx
    exact Or.inl hx
  | succeed off b =>
    cases h
    exact Or.inl hx
  | _ => cases h

theorem isBatch_fresh (h : j.isBatch = true) : j.fresh = [] := sends_fresh (isBatch_sends h).1

/-- What was put in the queue is behind no batch on its way. -/
theorem OrderlyJob.requeued (h : OrderlyJob alloc s j) (hj : j.requeued = some x) :
    ∀ j' ∈ s.sender, ∀ y ∈ j'.toHand, ¬ Earlier alloc x y := by
  cases j with
  | enqueueRetry due b =>
    cases hj
    exact h
  | _ => cases hj

/-! ## The jobs of a turn -/

theorem runPipe_accumulator {p : Pipe} (h : runPipe env s p j = some r) : r.1.accumulator = s.accumulator := by
  cases j with
  | writerRead pipe =>
    simp only [runPipe] at h
    split at h
    · cases h
    · cases h
      rfl
  | receive pipe =>
    simp only [runPipe] at h
    split at h
    · cases h
      rfl
    · split at h
      · cases h
      · cases h
        rfl
    · split at h
      · cases h
      · cases h
        rfl
  | handOff => cases h; rfl
  | resetCount => cases h; rfl
  | forget => cases h; rfl
  | countDown => cases h; rfl
  | _ => cases h

/-- A job of a pipe's thread leaves the sender alone. -/
theorem Ordered.pipeThread (h : Ordered cfg alloc leader s) (hdid : Did cfg env s s' j r)
    (hran : runBatch cfg env s j = some r ∨ ∃ p, runPipe env s p j = some r) (hsender : s'.sender = s.sender)
    (ho : OrderlyJob alloc s j) : Ordered cfg alloc leader s' := by
  have hkept : j.fresh = [] ∧ r.1.accumulator = s.accumulator ∧
      ∀ x ∈ r.1.queued, x ∈ s.queued ∨ j.requeued = some x := by
    rcases hran with hr | ⟨p, hr⟩
    · obtain ⟨hsame, hbatch, -⟩ := runBatch_unmoved hr
      exact ⟨isBatch_fresh hbatch, hsame.accumulator, runBatch_queued hr⟩
    · refine ⟨?_, runPipe_accumulator hr, fun x hx => Or.inl ?_⟩
      · obtain ⟨⟨i, hi⟩, -⟩ := runPipe_pipe hr
        cases j with
        | hold => cases hi
        | _ => rfl
      · unfold SenderState.queued at hx
        rw [(runPipe_untouched hr).queue] at hx
        exact hx
  obtain ⟨hfresh, hacc, hqueue⟩ := hkept
  have hsame : s.fresh = j.fresh ++ s'.fresh := by
    unfold SenderState.fresh
    rw [hfresh, hsender, hdid.accumulator, hacc, List.nil_append]
  obtain ⟨hin, hlater⟩ := h.behind hdid hsame
  refine ⟨?_, ?_, ?_, hin, hlater, ?_, ?_, ?_⟩
  · rw [hsender]
    exact h.turn
  · rw [hsender]
    intro x hx j' hj' y hy
    unfold SenderState.queued at hx
    rw [hdid.queue] at hx
    rcases hqueue x hx with hx | hx
    · exact h.queue x hx j' hj' y hy
    · exact ho.requeued hx j' hj' y hy
  · rw [hsender]
    exact h.pass
  · rw [hsender]
    exact h.rounds
  · rw [hsender]
    exact h.leaders
  · rw [hsender]
    exact h.lanes

/-- A sending job is followed by others, and by the end of the turn. -/
theorem TurnAt.rest_of_sends (h : TurnAt (j :: rest)) (hj : j.sends = true) :
    ∃ js, (∀ j' ∈ js, j'.sends = true) ∧ rest = js ++ [.notBusy] := by
  generalize hall : j :: rest = all at h
  cases h with
  | loops =>
    cases hall
    cases hj
  | @gathers k hk =>
    cases hall
    cases j with
    | poll => cases hj
    | takeDue => cases hj
    | drain => cases hj
    | hold => cases hj
    | _ => cases hk
  | @sends js hjs =>
    cases js with
    | nil =>
      cases hall
      cases hj
    | cons k js =>
      cases hall
      exact ⟨js, fun j' hj' => hjs j' (List.mem_cons_of_mem _ hj'), rfl⟩

theorem lined_of_sends (h : j.sends = true) : j.lined = j.toHand := if_pos h

theorem Sends.mem {new : List Job} (h : Sends leader j new) {j' : Job} (hj : j' ∈ new) (hy : y ∈ j'.toHand) :
    y ∈ j.toHand := by
  have hin : y ∈ (new.flatMap Job.toHand).filter fun b => b.batchTopicPartition = y.batchTopicPartition :=
    List.mem_filter.2 ⟨List.mem_flatMap.2 ⟨j', hj, hy⟩, by simp⟩
  exact (List.mem_filter.1 ((h.order y.batchTopicPartition).subset hin)).1

/-- What follows a sending job has each partition in the order it was in. -/
theorem Sends.inOrder {new rest : List Job} (h : Sends leader j new) (hj : j.sends = true)
    (hpass : InOrder alloc ((j :: rest).flatMap Job.lined)) : InOrder alloc ((new ++ rest).flatMap Job.lined) := by
  have hnew : new.flatMap Job.lined = new.flatMap Job.toHand :=
    List.flatMap_congr fun j' hj' => lined_of_sends (h.sends j' hj')
  rw [List.flatMap_cons, lined_of_sends hj] at hpass
  rw [List.flatMap_append, hnew]
  refine pairwise_of_filter ProducerBatch.batchTopicPartition
    (fun x y hne (hlt : Earlier alloc y x) => hne hlt.1.symm) fun tp => ?_
  have hsub : ((new.flatMap Job.toHand ++ rest.flatMap Job.lined).filter fun b => b.batchTopicPartition = tp).Sublist
      ((j.toHand ++ rest.flatMap Job.lined).filter fun b => b.batchTopicPartition = tp) := by
    rw [List.filter_append, List.filter_append]
    exact (h.order tp).append (List.Sublist.refl _)
  exact (hpass.filter _).sublist hsub

/-- A job that sends. -/
theorem Ordered.sending (h : Ordered cfg alloc leader s) (hs : s.sender = j :: rest)
    (hj : j.sends = true) (hsends : Sends leader j r.2) (hsender : s'.sender = r.2 ++ rest)
    (hqueue : ∀ x ∈ r.1.queued, x ∈ s.queued ∨ j.requeued = some x) (hacc : r.1.accumulator = s.accumulator)
    (hlanes : Lanes cfg (r.2 ++ rest)) (hdid : Did cfg env s s' j r) (ho : OrderlyJob alloc s j) :
    Ordered cfg alloc leader s' := by
  have hjob : j ∈ s.sender := by
    rw [hs]
    exact List.mem_cons_self
  have hrest : ∀ j' ∈ rest, j' ∈ s.sender := by
    intro j' hj'
    rw [hs]
    exact List.mem_cons_of_mem _ hj'
  have hnofresh : ∀ j' ∈ r.2, j'.fresh = [] := fun j' hj' => sends_fresh (hsends.sends j' hj')
  have hfresh : s.fresh = j.fresh ++ s'.fresh := by
    unfold SenderState.fresh
    rw [hsender, hs, hdid.accumulator, hacc, List.flatMap_cons, List.flatMap_append, sends_fresh hj,
      List.flatMap_eq_nil_iff.2 hnofresh]
    rfl
  obtain ⟨hin, hlater⟩ := h.behind hdid hfresh
  have hturn := h.turn
  have hpass := h.pass
  rw [hs] at hturn hpass
  obtain ⟨js, hjs, hend⟩ := hturn.rest_of_sends hj
  refine ⟨?_, ?_, ?_, hin, hlater, ?_, ?_, ?_⟩
  · rw [hsender, hend, ← List.append_assoc]
    refine .sends fun j' hj' => ?_
    rcases List.mem_append.1 hj' with hj' | hj'
    · exact hsends.sends j' hj'
    · exact hjs j' hj'
  · intro x hx j' hj' y hy
    unfold SenderState.queued at hx
    rw [hdid.queue] at hx
    rw [hsender] at hj'
    have hold : ∃ k ∈ s.sender, y ∈ k.toHand := by
      rcases List.mem_append.1 hj' with hj' | hj'
      · exact ⟨j, hjob, hsends.mem hj' hy⟩
      · exact ⟨j', hrest j' hj', hy⟩
    obtain ⟨k, hk, hyk⟩ := hold
    rcases hqueue x hx with hx | hx
    · exact h.queue x hx k hk y hyk
    · exact ho.requeued hx k hk y hyk
  · rw [hsender]
    exact hsends.inOrder hj hpass
  · rw [hsender]
    intro j' hj'
    rcases List.mem_append.1 hj' with hj' | hj'
    · exact hsends.rounds (h.rounds j hjob) j' hj'
    · exact h.rounds j' (hrest j' hj')
  · rw [hsender]
    intro j' hj'
    rcases List.mem_append.1 hj' with hj' | hj'
    · exact hsends.broker j' hj'
    · exact h.leaders j' (hrest j' hj')
  · rw [hsender]
    exact hlanes

/-- The jobs of the sender, as they come. -/
theorem TurnAt.cases {rest : List Job} (h : TurnAt (j :: rest)) : (j = .loop ∧ rest = []) ∨ (j = .notBusy ∧ rest = []) ∨
    (j.gathers = true ∧ rest = [.notBusy]) ∨ j.sends = true := by
  generalize hall : j :: rest = all at h
  cases h with
  | loops =>
    cases hall
    exact Or.inl ⟨rfl, rfl⟩
  | @gathers k hk =>
    cases hall
    exact Or.inr (Or.inr (Or.inl ⟨hk, rfl⟩))
  | @sends js hjs =>
    cases js with
    | nil =>
      cases hall
      exact Or.inr (Or.inl ⟨rfl, rfl⟩)
    | cons k js =>
      cases hall
      exact Or.inr (Or.inr (Or.inr (hjs _ List.mem_cons_self)))

theorem isDue_congr {now : Int} {q : List RetryEntry} {e e' : RetryEntry}
    (h : e.reBatch.batchTopicPartition = e'.reBatch.batchTopicPartition) : isDue now q e = isDue now q e' := by
  unfold isDue
  rw [h]

theorem isBehind_of_queued (hx : x ∈ s.queued) (htp : x.batchTopicPartition = b.batchTopicPartition) :
    isBehind s.senderRetryQueue b = true := by
  obtain ⟨e, he, rfl⟩ := List.mem_map.1 hx
  have hin : e.reDueMs ∈ (s.senderRetryQueue.filter fun e =>
      e.reBatch.batchTopicPartition = b.batchTopicPartition).map RetryEntry.reDueMs :=
    List.mem_map_of_mem (List.mem_filter.2 ⟨he, decide_eq_true htp⟩)
  unfold isBehind lastDue
  rw [Option.isSome_iff_ne_none]
  intro hnone
  rw [List.max?_eq_none_iff.1 hnone] at hin
  cases hin

/-- A job that gathers the batches of a turn, or is between turns. -/
theorem Ordered.gathering (h : Ordered cfg alloc leader s) (hdid : Did cfg env s s' j r)
    (hsender : s'.sender = r.2 ++ rest) (hend : ∀ j' ∈ rest, j' = .notBusy) (hturn : TurnAt (r.2 ++ rest))
    (hfresh : s.fresh = j.fresh ++ s'.fresh)
    (hqueue : ∀ x ∈ r.1.queued, ∀ j' ∈ r.2, ∀ y ∈ j'.toHand, ¬ Earlier alloc x y)
    (hpass : InOrder alloc (r.2.flatMap Job.lined)) (hrounds : ∀ j' ∈ r.2, j'.Round)
    (hleaders : ∀ j' ∈ r.2, j'.ToBroker leader) (hlanes : Lanes cfg (r.2 ++ rest)) :
    Ordered cfg alloc leader s' := by
  obtain ⟨hin, hlater⟩ := h.behind hdid hfresh
  have hrest : rest.flatMap Job.lined = [] :=
    List.flatMap_eq_nil_iff.2 fun j' hj' => by rw [hend j' hj']; rfl
  refine ⟨?_, ?_, ?_, hin, hlater, ?_, ?_, ?_⟩
  · rw [hsender]
    exact hturn
  · intro x hx j' hj' y hy
    unfold SenderState.queued at hx
    rw [hdid.queue] at hx
    rw [hsender] at hj'
    rcases List.mem_append.1 hj' with hj' | hj'
    · exact hqueue x hx j' hj' y hy
    · rw [hend j' hj'] at hy
      cases hy
  · rw [hsender, List.flatMap_append, hrest, List.append_nil]
    exact hpass
  · rw [hsender]
    intro j' hj'
    rcases List.mem_append.1 hj' with hj' | hj'
    · exact hrounds j' hj'
    · rw [hend j' hj']
      trivial
  · rw [hsender]
    intro j' hj'
    rcases List.mem_append.1 hj' with hj' | hj'
    · exact hleaders j' hj'
    · rw [hend j' hj']
      trivial
  · rw [hsender]
    exact hlanes

theorem mem_toSend {due go : List ProducerBatch} (h : b ∈ toSend due go) : b ∈ due ∨ b ∈ go :=
  (List.mem_append.1 h).imp_left (List.perm_insertionSort retriedLe due).mem_iff.1

/-- The batches of a turn are put together. -/
theorem Ordered.hold {due fresh : List ProducerBatch} (h : Ordered cfg alloc leader s)
    (hs : s.sender = .hold due fresh :: rest) (hrest : rest = [.notBusy]) (hdid : Did cfg env s s' (.hold due fresh) r)
    (hr : runSender cfg env s (.hold due fresh) = some r) (hsender : s'.sender = r.2 ++ rest)
    (ho : Unwrapped alloc due) : Ordered cfg alloc leader s' := by
  cases hr
  subst hrest
  have hjob : Job.hold due fresh ∈ s.sender := by
    rw [hs]
    exact List.mem_cons_self
  have hnow : s.fresh = fresh ++ s.accumulator := by
    unfold SenderState.fresh
    rw [hs]
    show fresh ++ [] ++ s.accumulator = _
    rw [List.append_nil]
  have hdue : ∀ x ∈ due, x ∈ s.old := fun x hx =>
    List.mem_append_right _ (List.mem_flatMap.2 ⟨_, List.mem_append_left _ hjob, hx⟩)
  have hfreshlater : ∀ f ∈ fresh, ∀ x ∈ s.old, ¬ Earlier alloc f x := by
    intro f hf
    refine h.later f ?_
    rw [hnow]
    exact List.mem_append_left _ hf
  have hfreshin : InOrder alloc fresh := by
    have hin := h.fresh
    rw [hnow] at hin
    exact (List.pairwise_append.1 hin).1
  have hgo : ∀ y ∈ fresh.filter (fun b => ¬ isBehind s.senderRetryQueue b), y ∈ fresh ∧
      isBehind s.senderRetryQueue y = false := by
    intro y hy
    obtain ⟨hin, hnot⟩ := List.mem_filter.1 hy
    exact ⟨hin, Bool.eq_false_iff.2 (of_decide_eq_true hnot)⟩
  refine h.gathering hdid hsender (List.forall_mem_singleton.2 rfl) ?_ ?_ (fun x hx j' hj' y hy hlt => ?_) ?_ ?_ ?_ ?_
  · exact .sends (List.forall_mem_singleton.2 rfl)
  · rw [hnow]
    show fresh ++ s.accumulator = fresh ++ s'.fresh
    unfold SenderState.fresh
    rw [hsender, hdid.accumulator]
    rfl
  · rw [List.mem_singleton.1 hj'] at hy
    obtain ⟨e, he, rfl⟩ := List.mem_map.1 hx
    rcases List.mem_append.1 he with he | he
    · have hin : e.reBatch ∈ s.queued := List.mem_map_of_mem he
      rcases mem_toSend hy with hy | hy
      · exact h.queue _ hin _ hjob y hy hlt
      · have hbehind := isBehind_of_queued hin hlt.1
        rw [(hgo y hy).2] at hbehind
        cases hbehind
    · obtain ⟨f, hf, rfl⟩ := List.mem_map.1 he
      obtain ⟨hfin, hbehind⟩ := List.mem_filter.1 hf
      rcases mem_toSend hy with hy | hy
      · exact hfreshlater f hfin y (hdue y hy) hlt
      · have hsame : isBehind s.senderRetryQueue y = isBehind s.senderRetryQueue f := by
          unfold isBehind
          rw [hlt.1]
        rw [(hgo y hy).2, hbehind] at hsame
        cases hsame
  · show InOrder alloc ((toSend due _ ++ []))
    rw [List.append_nil]
    refine List.pairwise_append.2 ⟨sorted_inOrder ho, hfreshin.sublist List.filter_sublist, fun x hx y hy => ?_⟩
    exact hfreshlater y (hgo y hy).1 x (hdue x ((List.perm_insertionSort retriedLe due).mem_iff.1 hx))
  · exact List.forall_mem_singleton.2 trivial
  · exact List.forall_mem_singleton.2 (List.forall_mem_nil _)
  · exact .waiting (List.forall_mem_cons.2 ⟨rfl, List.forall_mem_singleton.2 rfl⟩) (le_refl 1)

/-- A job of the sender, by the part of the turn it is in. -/
theorem Ordered.runSender (h : Ordered cfg alloc leader s) (hs : s.sender = j :: rest)
    (hr : runSender cfg env s j = some r) (hone : ∀ a ∈ env.leader, a = leader) (ho : OrderlyJob alloc s j) :
    Ordered cfg alloc leader { r.1 with sender := r.2 ++ rest } := by
  have hdid := did_sender hs (Or.inr hr)
  have hjob : j ∈ s.sender := by
    rw [hs]
    exact List.mem_cons_self
  have hturn := h.turn
  have hlanes := h.lanes
  rw [hs] at hturn hlanes
  rcases hturn.cases with ⟨rfl, rfl⟩ | ⟨rfl, rfl⟩ | ⟨hj, rfl⟩ | hj
  · cases hr
    refine h.gathering hdid rfl (List.forall_mem_nil _) (.gathers rfl) ?_ ?_ List.Pairwise.nil ?_ ?_ ?_
    · unfold SenderState.fresh
      rw [hs]
      rfl
    · exact fun x _ => List.forall_mem_cons.2 ⟨List.forall_mem_nil _, List.forall_mem_singleton.2 (List.forall_mem_nil _)⟩
    · exact List.forall_mem_cons.2 ⟨trivial, List.forall_mem_singleton.2 trivial⟩
    · exact List.forall_mem_cons.2 ⟨trivial, List.forall_mem_singleton.2 trivial⟩
    · exact .waiting (List.forall_mem_cons.2 ⟨rfl, List.forall_mem_singleton.2 rfl⟩) (Nat.zero_le 1)
  · cases hr
    refine h.gathering hdid rfl (List.forall_mem_nil _) .loops ?_ ?_ List.Pairwise.nil ?_ ?_ ?_
    · unfold SenderState.fresh
      rw [hs]
      rfl
    · exact fun x _ => List.forall_mem_singleton.2 (List.forall_mem_nil _)
    · exact List.forall_mem_singleton.2 trivial
    · exact List.forall_mem_singleton.2 trivial
    · exact .waiting (List.forall_mem_singleton.2 rfl) (Nat.zero_le 1)
  · cases j with
    | poll =>
      cases hr
      refine h.gathering hdid rfl (List.forall_mem_singleton.2 rfl) (.gathers rfl) ?_ ?_ List.Pairwise.nil ?_ ?_ ?_
      · unfold SenderState.fresh
        rw [hs]
        rfl
      · exact fun x _ => List.forall_mem_singleton.2 (List.forall_mem_nil _)
      · exact List.forall_mem_singleton.2 trivial
      · exact List.forall_mem_singleton.2 trivial
      · exact .waiting (List.forall_mem_cons.2 ⟨rfl, List.forall_mem_singleton.2 rfl⟩) (Nat.zero_le 1)
    | takeDue hasReady =>
      cases hr
      have hfresh : s.fresh = SenderState.fresh { s with sender := [] } := by
        unfold SenderState.fresh
        rw [hs]
        rfl
      have hqueue : ∀ x ∈ (s.senderRetryQueue.filter fun e => ¬ isDue env.now s.senderRetryQueue e).map RetryEntry.reBatch,
          ∀ y ∈ (s.senderRetryQueue.filter (isDue env.now s.senderRetryQueue)).map RetryEntry.reBatch,
            ¬ Earlier alloc x y := by
        intro x hx y hy hlt
        obtain ⟨e, he, rfl⟩ := List.mem_map.1 hx
        obtain ⟨f, hf, rfl⟩ := List.mem_map.1 hy
        have hnot := of_decide_eq_true (List.mem_filter.1 he).2
        exact hnot ((isDue_congr hlt.1).trans (List.mem_filter.1 hf).2)
      by_cases hsend : hasReady = true ∨ (s.senderRetryQueue.filter (isDue env.now s.senderRetryQueue)).map
          RetryEntry.reBatch ≠ []
      · rw [if_pos hsend] at hdid ⊢
        refine h.gathering hdid rfl (List.forall_mem_singleton.2 rfl) (.gathers rfl) hfresh ?_ List.Pairwise.nil ?_ ?_ ?_
        · exact fun x hx => List.forall_mem_singleton.2 (hqueue x hx)
        · exact List.forall_mem_singleton.2 trivial
        · exact List.forall_mem_singleton.2 trivial
        · exact .waiting (List.forall_mem_cons.2 ⟨rfl, List.forall_mem_singleton.2 rfl⟩) (Nat.zero_le 1)
      · rw [if_neg hsend] at hdid ⊢
        refine h.gathering hdid rfl (List.forall_mem_singleton.2 rfl) (.sends (List.forall_mem_nil _)) hfresh ?_
          List.Pairwise.nil (List.forall_mem_nil _) (List.forall_mem_nil _) ?_
        · exact fun x _ => List.forall_mem_nil _
        · exact .waiting (List.forall_mem_singleton.2 rfl) (Nat.zero_le 1)
    | drain hasReady due =>
      have hqueue : ∀ x ∈ s.queued, ∀ y ∈ due, ¬ Earlier alloc x y := fun x hx => h.queue x hx _ hjob
      have hlane : ∀ fresh, Lanes cfg ([Job.hold due fresh] ++ [.notBusy]) := fun fresh =>
        .waiting (List.forall_mem_cons.2 ⟨rfl, List.forall_mem_singleton.2 rfl⟩) (Nat.zero_le 1)
      simp only [Kafka.Sender.runSender] at hr
      split at hr
      · cases hr
        refine h.gathering hdid rfl (List.forall_mem_singleton.2 rfl) (.gathers rfl) ?_ ?_ List.Pairwise.nil ?_ ?_ (hlane _)
        · unfold SenderState.fresh
          rw [hs]
          show [] ++ s.accumulator = [] ++ (s.accumulator ++ [] ++ [])
          rw [List.append_nil, List.append_nil]
        · exact fun x hx => List.forall_mem_singleton.2 (hqueue x hx)
        · exact List.forall_mem_singleton.2 trivial
        · exact List.forall_mem_singleton.2 trivial
      · cases hr
        refine h.gathering hdid rfl (List.forall_mem_singleton.2 rfl) (.gathers rfl) ?_ ?_ List.Pairwise.nil ?_ ?_ (hlane _)
        · unfold SenderState.fresh
          rw [hs]
          rfl
        · exact fun x hx => List.forall_mem_singleton.2 (hqueue x hx)
        · exact List.forall_mem_singleton.2 trivial
        · exact List.forall_mem_singleton.2 trivial
    | hold due fresh => exact h.hold hs rfl hdid hr rfl ho
    | _ => cases hj
  · obtain ⟨hsends, hqueue, hacc⟩ := runSender_sends hj hone (h.leaders j hjob) hr
    refine h.sending hs hj hsends rfl (fun x hx => Or.inl ?_) hacc
      (runSender_lanes hj (h.leaders j hjob) hlanes hr) hdid ho
    unfold SenderState.queued at hx
    rwa [hqueue] at hx

/-- **A step keeps the order**, if it is orderly. -/
theorem step_ordered {e : Event} (h : Ordered cfg alloc leader s) (hone : OnBroker leader e) (ho : Orderly alloc s e)
    (hstep : Steps cfg s e s') : Ordered cfg alloc leader s' := by
  cases hstep with
  | ready b => exact h.ready ho
  | @sender env j rest r hs hr =>
    have hj := ho j (next_sender hs)
    rcases hr with hr | hr
    · obtain ⟨hsame, hbatch, hnew⟩ := runBatch_unmoved hr
      have hlanes := h.lanes
      rw [hs] at hlanes
      exact h.sending hs (isBatch_sends hbatch).1 (sends_of_isBatch hnew) rfl (runBatch_queued hr) hsame.accumulator
        (hlanes.next fun j' hj' => isBatch_lane (hnew j' hj')) (did_sender hs (Or.inl hr)) hj
    · exact h.runSender hs hr hone hj
  | @writer i env p j rest r hp hs hr =>
    refine h.pipeThread (did_writer hp hs hr) (hr.imp_right fun hr => ⟨p, hr⟩) (pipeJob_kept hr).2 (ho j ?_)
    rw [next_writer hp, hs]
    rfl
  | @reader i env p j rest r hp hs hr =>
    refine h.pipeThread (did_reader hp hs hr) (hr.imp_right fun hr => ⟨p, hr⟩) (pipeJob_kept hr).2 (ho j ?_)
    rw [next_reader hp, hs]
    rfl

/-! ## Hand-overs -/

/-- A round is handed to the pipe of its partitions: each partition once, and none that
    was allocated earlier is in the retry queue, in the rest of the turn or behind it. -/
structure HandsOver (alloc : ProducerBatch → Nat) (s : SenderState) (pipe : PipeId) (valid : List ProducerBatch)
    (rest : List Job) : Prop where
  once : (valid.map ProducerBatch.batchTopicPartition).Nodup
  queue : ∀ b ∈ valid, ∀ x ∈ s.queued, ¬ Earlier alloc x b
  turn : ∀ b ∈ valid, ∀ j ∈ rest, ∀ x ∈ j.toHand, ¬ Earlier alloc x b
  accumulator : ∀ b ∈ valid, ∀ x ∈ s.accumulator, ¬ Earlier alloc x b
  pipe : ∀ b ∈ valid, ∀ j ∈ rest, ∀ i ∈ j.pipe, ∀ x ∈ j.toHand,
    x.batchTopicPartition = b.batchTopicPartition → i = pipe

/-- The sender hands over in order, and drops no batch. -/
def HandsInOrder (cfg : Config) (alloc : ProducerBatch → Nat) (s : SenderState) : Event → Prop
  | .run .sender env =>
    (∀ pipe valid rest, s.sender = .write pipe valid :: rest → HandsOver alloc s pipe valid rest) ∧
      ∀ s', step cfg s (.run .sender env) = some s' → s'.ran + s'.pending = s.ran + s.pending
  | _ => True

theorem toHand_of_onLane {i : PipeId} (h : j.OnLane cfg ids) (hi : j.pipe = some i)
    (hx : x ∈ j.toHand) : i = ids.getD (cfg.hash x.batchTopicPartition % ids.length) 0 := by
  cases j with
  | round pipe batches =>
    cases hi
    exact h x hx
  | count pipe valid =>
    cases hi
    exact h x hx
  | write pipe valid =>
    cases hi
    exact h x hx
  | group => cases hi
  | pool => cases hi
  | drain => cases hi
  | hold => cases hi
  | _ => cases hx

theorem Ordered.handsOver {pipe : PipeId} {valid : List ProducerBatch}
    (h : Ordered cfg alloc leader s) (hs : s.sender = .write pipe valid :: rest) :
    HandsOver alloc s pipe valid rest := by
  have hjob : Job.write pipe valid ∈ s.sender := by
    rw [hs]
    exact List.mem_cons_self
  have hold : ∀ b ∈ valid, b ∈ s.old := fun b hb =>
    List.mem_append_right _ (List.mem_flatMap.2 ⟨_, List.mem_append_left _ hjob, hb⟩)
  have hturn := h.turn
  have hpass := h.pass
  have hlanes := h.lanes
  rw [hs] at hturn hpass hlanes
  refine ⟨h.rounds _ hjob, fun b hb x hx => h.queue x hx _ hjob b hb, fun b hb j' hj' x hx => ?_,
    fun b hb x hx => h.later x (List.mem_append_right _ hx) b (hold b hb), fun b hb j' hj' i hi x hx htp => ?_⟩
  · obtain ⟨js, hjs, rfl⟩ := hturn.rest_of_sends rfl
    rw [List.flatMap_cons] at hpass
    refine (List.pairwise_append.1 hpass).2.2 b hb x (List.mem_flatMap.2 ⟨j', hj', ?_⟩)
    rcases List.mem_append.1 hj' with hj' | hj'
    · rwa [lined_of_sends (hjs j' hj')]
    · rw [List.mem_singleton.1 hj'] at hx
      cases hx
  · cases hlanes with
    | waiting hpipe =>
      have hnone := hpipe _ List.mem_cons_self
      cases hnone
    | pooled ids hwaits hlane =>
      rw [toHand_of_onLane (hlane j' (List.mem_cons_of_mem _ hj')) hi hx, htp]
      exact (toHand_of_onLane (hlane _ List.mem_cons_self) rfl hb).symm

theorem Ordered.handsInOrder (h : Ordered cfg alloc leader s) (e : Event) : HandsInOrder cfg alloc s e := by
  cases e with
  | ready b => trivial
  | run thread env =>
    cases thread with
    | sender =>
      refine ⟨fun pipe valid rest hs => h.handsOver hs, fun s' hstep => ?_⟩
      cases steps_of_step hstep with
      | sender hs hr => exact sender_conserved hs hr
    | writer i => trivial
    | reader i => trivial

theorem init_ordered : Ordered cfg alloc leader SenderState.init := by
  refine ⟨.loops, fun x hx => ?_, List.Pairwise.nil, List.Pairwise.nil, fun f hf => ?_, ?_, ?_, ?_⟩
  · cases hx
  · cases hf
  · exact List.forall_mem_singleton.2 trivial
  · exact List.forall_mem_singleton.2 trivial
  · exact .waiting (List.forall_mem_singleton.2 rfl) (Nat.zero_le 1)

instance (due : List ProducerBatch) : Decidable (Unwrapped alloc due) := inferInstanceAs (Decidable (_ ∧ _))

instance : ∀ j : Job, Decidable (OrderlyJob alloc s j)
  | .hold due _ => inferInstanceAs (Decidable (Unwrapped alloc due))
  | .enqueueRetry _ batch => inferInstanceAs (Decidable (∀ j ∈ s.sender, ∀ y ∈ j.toHand, ¬ Earlier alloc batch y))
  | .loop | .poll | .takeDue _ | .drain .. | .group .. | .pool .. | .round .. | .count .. | .write .. | .notBusy
  | .writerRead _ | .handOff .. | .receive _ | .resetCount _ | .forget _ | .countDown _
  | .retryOrFail .. | .failBatch .. | .succeed .. => isTrue trivial

instance : ∀ e : Event, Decidable (ReadyInOrder alloc s e)
  | .ready batch => inferInstanceAs (Decidable (∀ x ∈ s.old ++ s.fresh, ¬ Earlier alloc batch x))
  | .run .. => isTrue trivial

instance : ∀ e : Event, Decidable (Orderly alloc s e)
  | .ready batch => inferInstanceAs (Decidable (ReadyInOrder alloc s (.ready batch)))
  | .run thread env => inferInstanceAs (Decidable (∀ j ∈ s.next (.run thread env), OrderlyJob alloc s j))

def numbered (sequence : Int32) : ProducerBatch := { idempotentBatch with batchBaseSequence := sequence }

def handsOn : Event := .run .sender { broker with now := 200 }

/-- Two batches that find no leader, and are both due in the next turn, which is about
    to hand the first round over. -/
def retriedOnce (first second : Int32) : List Event :=
  [.ready (numbered first), .ready (numbered second)] ++
    (List.replicate 13 (.run .sender { broker with leader := none }) ++ List.replicate 11 handsOn)

/-- The batch with the given sequence number was allocated first. -/
def firstIs (first : Int32) (b : ProducerBatch) : Nat := if b.batchBaseSequence = first then 0 else 1

theorem retriedOnce_onBroker (first second : Int32) : ∀ e ∈ retriedOnce first second ++ [handsOn], OnBroker 1 e := by
  intro e he
  rcases List.mem_append.1 he with he | he
  · rcases List.mem_append.1 he with he | he
    · rcases List.mem_cons.1 he with rfl | he
      · trivial
      · rw [List.mem_singleton.1 he]
        trivial
    · rcases List.mem_append.1 he with he | he
      · rw [List.eq_of_mem_replicate he]
        exact fun b hb => by cases hb
      · rw [List.eq_of_mem_replicate he]
        exact fun b hb => (Option.mem_some.1 hb).symm
  · rw [List.mem_singleton.1 he]
    exact fun b hb => (Option.mem_some.1 hb).symm

end Wireform.Kafka.Sender

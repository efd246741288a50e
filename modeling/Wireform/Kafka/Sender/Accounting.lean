/-
  Where the batches are.

  A batch is in one place: the accumulator, the retry queue, a channel of a pipe, the
  jobs of a thread, or among the completed ones.  `Conserves` says that a job moves its
  batches to where they are next, and neither loses nor doubles one.

  * `runBatch_conserves`, `runSender_conserves`: the jobs on batches and the jobs of the
    sender do;
  * `runPipe_conserves`: so do the jobs of a pipe, if the response that the reader takes
    names every partition of its request once.
-/
import Mathlib.Algebra.Order.Group.Multiset
import Mathlib.Tactic.Abel
import Wireform.Kafka.Sender.Model

namespace Wireform.Kafka.Sender

open Transition

variable {cfg : Config} {env : Env} {s s' : SenderState}

/-! ## Places -/

/-- The callbacks of some batches. -/
def callbacksOf (bs : List ProducerBatch) : Multiset RecordCallback :=
  (bs.map fun b => (b.batchCallbacks : Multiset RecordCallback)).sum

/-- The batches a job has. -/
def Job.batches : Job → List ProducerBatch
  | .drain _ due => due
  | .hold due fresh => due ++ fresh
  | .group rest known unknown => rest ++ known.map Prod.snd ++ unknown
  | .pool _ batches => batches
  | .round _ batches => batches
  | .count _ valid => valid
  | .write _ valid => valid
  | .handOff _ batches => batches
  | .retryOrFail _ batch => [batch]
  | .enqueueRetry _ batch => [batch]
  | .failBatch _ batch => [batch]
  | .succeed _ batch => [batch]
  | _ => []

attribute [grind =] Job.batches

def heldBy (js : List Job) : Multiset RecordCallback := callbacksOf (js.flatMap Job.batches)

def Pipe.held (p : Pipe) : Multiset RecordCallback :=
  callbacksOf p.outbox.flatten + callbacksOf p.inFlight.flatten + heldBy p.writer + heldBy p.reader

namespace SenderState

/-- What is neither completed nor with the sender loop. -/
def shared (s : SenderState) : Multiset RecordCallback :=
  callbacksOf s.accumulator + callbacksOf (s.senderRetryQueue.map RetryEntry.reBatch) +
    (s.pipes.map Pipe.held).sum

def pending (s : SenderState) : Multiset RecordCallback := s.shared + heldBy s.sender

/-- The callbacks that have run. -/
def ran (s : SenderState) : Multiset RecordCallback := callbacksOf (s.completed.map Prod.fst)

end SenderState

@[simp] theorem callbacksOf_nil : callbacksOf [] = 0 := rfl

@[simp] theorem callbacksOf_append (bs bs' : List ProducerBatch) :
    callbacksOf (bs ++ bs') = callbacksOf bs + callbacksOf bs' := by
  simp [callbacksOf]

theorem callbacksOf_cons (b : ProducerBatch) (bs : List ProducerBatch) :
    callbacksOf (b :: bs) = callbacksOf [b] + callbacksOf bs := by
  simp [callbacksOf]

theorem callbacksOf_perm {bs bs' : List ProducerBatch} (h : bs.Perm bs') : callbacksOf bs = callbacksOf bs' :=
  (h.map _).sum_eq

theorem callbacksOf_filter (p : ProducerBatch → Bool) (bs : List ProducerBatch) :
    callbacksOf (bs.filter p) + callbacksOf (bs.filter fun b => ¬ p b) = callbacksOf bs := by
  rw [← callbacksOf_append]
  exact callbacksOf_perm (by simpa using List.filter_append_perm p bs)

@[simp] theorem callbacksOf_bump (b : ProducerBatch) : callbacksOf [bumpBatchAttempts b] = callbacksOf [b] := rfl

@[simp] theorem heldBy_nil : heldBy [] = 0 := rfl

@[simp] theorem heldBy_append (js js' : List Job) : heldBy (js ++ js') = heldBy js + heldBy js' := by
  simp [heldBy]

@[simp] theorem heldBy_cons (j : Job) (js : List Job) : heldBy (j :: js) = callbacksOf j.batches + heldBy js := by
  simp [heldBy]

/-- One job for each batch. -/
theorem heldBy_map {f : ProducerBatch → Job} (hf : ∀ b, (f b).batches = [b]) (bs : List ProducerBatch) :
    heldBy (bs.map f) = callbacksOf bs := by
  unfold heldBy
  rw [List.flatMap_map, show (fun b => (f b).batches) = fun b => [b] from funext hf, List.flatMap_singleton']

/-! ## One pipe of several -/

theorem sum_map_modify {α M : Type} [AddCommMonoid M] (w : α → M) (f : α → α) :
    ∀ (l : List α) (i : Nat) {a : α}, l[i]? = some a →
      ((l.modify i f).map w).sum + w a = (l.map w).sum + w (f a)
  | [], _, _, h => by cases h
  | b :: l, 0, a, h => by
    cases h
    rw [List.modify_zero_cons, List.map_cons, List.map_cons, List.sum_cons, List.sum_cons]
    abel
  | b :: l, i + 1, a, h => by
    have ih := sum_map_modify w f l i (a := a) h
    rw [List.modify_succ_cons, List.map_cons, List.map_cons, List.sum_cons, List.sum_cons, add_assoc, ih]
    abel

variable {r : SenderState × List Job} {i : PipeId} {f : Pipe → Pipe}

/-- What a change of one pipe does to what is held. -/
theorem shared_modifyPipe {p : Pipe} {x y : Multiset RecordCallback}
    (hp : s.pipes[i]? = some p) (h : (f p).held + x = p.held + y) :
    (modifyPipe s i f).shared + x = s.shared + y := by
  have hsum := sum_map_modify Pipe.held f s.pipes i hp
  unfold SenderState.shared modifyPipe
  refine add_right_cancel (b := p.held) ?_
  calc callbacksOf s.accumulator + callbacksOf (s.senderRetryQueue.map RetryEntry.reBatch) +
        ((s.pipes.modify i f).map Pipe.held).sum + x + p.held
      = callbacksOf s.accumulator + callbacksOf (s.senderRetryQueue.map RetryEntry.reBatch) + x +
        (((s.pipes.modify i f).map Pipe.held).sum + p.held) := by abel
    _ = callbacksOf s.accumulator + callbacksOf (s.senderRetryQueue.map RetryEntry.reBatch) +
        (s.pipes.map Pipe.held).sum + ((f p).held + x) := by rw [hsum]; abel
    _ = callbacksOf s.accumulator + callbacksOf (s.senderRetryQueue.map RetryEntry.reBatch) +
        (s.pipes.map Pipe.held).sum + y + p.held := by rw [h]; abel

/-- A change that leaves the channels and the threads alone. -/
theorem shared_modifyPipe_same (h : ∀ p, (f p).held = p.held) :
    (modifyPipe s i f).shared = s.shared := by
  cases hp : s.pipes[i]? with
  | none =>
    have hlen := List.getElem?_eq_none_iff.1 hp
    unfold modifyPipe
    rw [List.modify_eq_self hlen]
  | some p =>
    have hsame := shared_modifyPipe (x := 0) (y := 0) hp (f := f) (by rw [h])
    simpa using hsame

/-! ## Rounds -/

theorem filter_poolRounds (cfg : Config) (ids : List PipeId) (bs : List ProducerBatch)
    (P : ProducerBatch → Bool)
    (hP : ∀ a b, P a = true → P b = true → a.batchTopicPartition = b.batchTopicPartition) :
    ((poolRounds cfg ids bs).flatMap Job.batches).filter P = bs.filter P := by
  have hround : ∀ e : Nat × List ProducerBatch,
      (((roundsPerPartition e.2).map fun r => Job.round (ids.getD e.1 0) r).flatMap Job.batches).filter P =
        e.2.filter P := by
    intro e
    rw [List.flatMap_map, show (fun r => (Job.round (ids.getD e.1 0) r).batches) = fun r => r from rfl,
      List.flatMap_id']
    exact filter_rounds e.2 P fun a b ha hb => by rw [hP a b ha hb]
  have hgroups : ((groups (bs.map fun b => (cfg.hash b.batchTopicPartition % ids.length, b))).flatMap
      Prod.snd).filter P = bs.filter P := by
    by_cases hsome : ∃ a, P a = true
    · obtain ⟨a, ha⟩ := hsome
      exact filter_groups (fun b => cfg.hash b.batchTopicPartition % ids.length) bs P
        (cfg.hash a.batchTopicPartition % ids.length) fun b hb => by rw [hP a b ha hb]
    · have hnone : ∀ l : List ProducerBatch, l.filter P = [] := by
        intro l
        rw [List.filter_eq_nil_iff]
        exact fun a _ ha => hsome ⟨a, ha⟩
      rw [hnone, hnone]
  rw [← hgroups]
  unfold poolRounds
  induction groups (bs.map fun b => (cfg.hash b.batchTopicPartition % ids.length, b)) with
  | nil => rfl
  | cons e m ih =>
    rw [List.flatMap_cons, List.flatMap_append, List.filter_append, hround e, ih, List.flatMap_cons,
      List.filter_append]

/-- **No batch is dropped or doubled on the way into rounds.** -/
theorem heldBy_poolRounds (cfg : Config) (ids : List PipeId) (bs : List ProducerBatch) :
    heldBy (poolRounds cfg ids bs) = callbacksOf bs := by
  refine callbacksOf_perm (perm_of_filter_eq ProducerBatch.batchTopicPartition fun tp => ?_)
  refine filter_poolRounds cfg ids bs _ fun a b ha hb => ?_
  rw [of_decide_eq_true ha, of_decide_eq_true hb]

/-! ## Responses -/

/-- A response that names every partition of a request once. -/
def NamesOnce (batches : List ProducerBatch) (parts : List PartitionResponse) : Prop :=
  ∀ b ∈ batches, (parts.filter fun r => r.key = b.batchTopicPartition).length = 1

theorem outcome_batches (r : PartitionResponse) (b : ProducerBatch) : (outcome r b).batches = [b] := by
  unfold outcome
  split
  · rfl
  · split
    · rfl
    · rfl

/-- A response has an outcome for a batch each time it names the batch's partition. -/
theorem heldBy_processProduceResponse {batches : List ProducerBatch} {parts : List PartitionResponse}
    (h : NamesOnce batches parts) : heldBy (processProduceResponse batches parts) = callbacksOf batches := by
  have hpart : ∀ (r : PartitionResponse) (bs : List ProducerBatch),
      heldBy (((bs.filter fun b => b.batchTopicPartition = r.key).reverse).map (outcome r)) =
        callbacksOf (bs.filter fun b => b.batchTopicPartition = r.key) := by
    intro r bs
    rw [heldBy_map (outcome_batches r)]
    exact callbacksOf_perm (List.reverse_perm _)
  have hcons : ∀ (b : ProducerBatch) (bs : List ProducerBatch) (rs : List PartitionResponse),
      heldBy (processProduceResponse (b :: bs) rs) =
        (rs.filter fun r => r.key = b.batchTopicPartition).length • callbacksOf [b] +
          heldBy (processProduceResponse bs rs) := by
    intro b bs rs
    induction rs with
    | nil => exact (zero_add _).symm
    | cons r rs ih =>
      unfold processProduceResponse at ih ⊢
      rw [List.flatMap_cons, List.flatMap_cons, heldBy_append, heldBy_append, ih, hpart, hpart, List.filter_cons,
        List.filter_cons]
      by_cases hk : b.batchTopicPartition = r.key
      · rw [if_pos (by simpa using hk), if_pos (by simpa using hk.symm), List.length_cons, succ_nsmul,
          callbacksOf_cons]
        abel
      · rw [if_neg (by simpa using hk), if_neg (by simpa using Ne.symm hk)]
        abel
  induction batches with
  | nil =>
    unfold processProduceResponse
    rw [List.flatMap_eq_nil_iff.2]
    · rfl
    · intro r _
      rfl
  | cons b bs ih =>
    rw [hcons, h b List.mem_cons_self, one_nsmul, ih fun b' hb' => h b' (List.mem_cons_of_mem _ hb'),
      callbacksOf_cons b bs]

/-! ## Jobs -/

/-- The response that a reader takes next names every partition of the request. -/
def Replied (env : Env) (p : Pipe) : Job → Prop
  | .receive _ => ∀ parts, env.reply = .produce parts → ∀ pp ∈ p.inFlight.head?, NamesOnce pp parts
  | _ => True

/-- A job moves its batches, to where they are next. -/
def Conserves (s : SenderState) (j : Job) (r : SenderState × List Job) : Prop :=
  r.1.ran + r.1.shared + heldBy r.2 = s.ran + s.shared + callbacksOf j.batches

theorem ran_complete (s : SenderState) (result : Except Failure Int) (bs : List ProducerBatch) :
    (s.complete result bs).ran = s.ran + callbacksOf bs := by
  have hfst : (bs.map fun b => (b, result)).map Prod.fst = bs := by
    rw [List.map_map]
    exact List.map_id _
  unfold SenderState.ran SenderState.complete
  rw [List.map_append, callbacksOf_append, hfst]

theorem runBatch_conserves {j : Job} (h : runBatch cfg env s j = some r) :
    Conserves s j r := by
  unfold Conserves
  cases j with
  | retryOrFail why b =>
    simp only [runBatch] at h
    split at h
    · cases h
      simp [Job.batches]
    · cases h
      simp [Job.batches]
  | enqueueRetry due b =>
    cases h
    show s.ran + _ + 0 = s.ran + s.shared + callbacksOf [b]
    unfold SenderState.shared
    rw [List.map_append, callbacksOf_append]
    show s.ran + (callbacksOf s.accumulator + (callbacksOf (s.senderRetryQueue.map RetryEntry.reBatch) +
      callbacksOf [b]) + (s.pipes.map Pipe.held).sum) + 0 = _
    abel
  | failBatch why b =>
    cases h
    unfold failBatch
    rw [ran_complete]
    split
    · show s.ran + callbacksOf [b] + s.shared + 0 = s.ran + s.shared + callbacksOf [b]
      abel
    · show s.ran + callbacksOf [b] + s.shared + 0 = s.ran + s.shared + callbacksOf [b]
      abel
  | succeed off b =>
    cases h
    rw [ran_complete]
    show s.ran + callbacksOf [b] + s.shared + 0 = s.ran + s.shared + callbacksOf [b]
    abel
  | _ => cases h

theorem retryEntries_reBatch (f : ProducerBatch → Int) (bs : List ProducerBatch) :
    (bs.map fun b => (⟨f b, b⟩ : RetryEntry)).map RetryEntry.reBatch = bs := by
  rw [List.map_map]
  exact List.map_id _

theorem callbacksOf_filter_entries (p : RetryEntry → Bool) (q : List RetryEntry) :
    callbacksOf ((q.filter p).map RetryEntry.reBatch) +
      callbacksOf ((q.filter fun e => ¬ p e).map RetryEntry.reBatch) = callbacksOf (q.map RetryEntry.reBatch) := by
  rw [← callbacksOf_append, ← List.map_append]
  refine callbacksOf_perm (List.Perm.map _ ?_)
  simpa using List.filter_append_perm p q

theorem runSender_conserves {j : Job} (h : runSender cfg env s j = some r) :
    Conserves s j r := by
  unfold Conserves
  cases j with
  | loop =>
    cases h
    rfl
  | poll =>
    cases h
    rfl
  | takeDue hasReady =>
    cases h
    have hsplit := callbacksOf_filter_entries (isDue env.now s.senderRetryQueue) s.senderRetryQueue
    have hjobs : heldBy (if hasReady = true ∨
          ((s.senderRetryQueue.filter (isDue env.now s.senderRetryQueue)).map RetryEntry.reBatch) ≠ [] then
        [.drain hasReady ((s.senderRetryQueue.filter (isDue env.now s.senderRetryQueue)).map RetryEntry.reBatch)]
        else []) =
          callbacksOf ((s.senderRetryQueue.filter (isDue env.now s.senderRetryQueue)).map RetryEntry.reBatch) := by
      split
      · simp [Job.batches]
      · rename_i hnot
        rw [not_or, not_not] at hnot
        rw [hnot.2]
        rfl
    simp only
    rw [hjobs]
    show s.ran + (callbacksOf s.accumulator + _ + (s.pipes.map Pipe.held).sum) + _ = s.ran + s.shared + 0
    unfold SenderState.shared
    rw [← hsplit]
    abel
  | drain hasReady due =>
    simp only [runSender] at h
    split at h
    · cases h
      rw [heldBy_cons, heldBy_nil]
      show s.ran + (0 + _ + _) + (callbacksOf (due ++ s.accumulator) + 0) = s.ran + s.shared + callbacksOf due
      unfold SenderState.shared
      rw [callbacksOf_append]
      abel
    · cases h
      rw [heldBy_cons, heldBy_nil]
      show s.ran + s.shared + (callbacksOf (due ++ []) + 0) = _
      rw [List.append_nil, add_zero]
      rfl
  | hold due fresh =>
    cases h
    have hsplit := callbacksOf_filter (isBehind s.senderRetryQueue) fresh
    rw [heldBy_cons, heldBy_nil]
    show s.ran + (callbacksOf s.accumulator + callbacksOf ((s.senderRetryQueue ++ _).map RetryEntry.reBatch) +
      (s.pipes.map Pipe.held).sum) + (callbacksOf ((due.insertionSort retriedLe ++ _) ++ [] ++ []) + 0) =
        s.ran + s.shared + callbacksOf (due ++ fresh)
    unfold SenderState.shared
    rw [List.map_append, retryEntries_reBatch, callbacksOf_append, List.append_nil, List.append_nil,
      callbacksOf_append, callbacksOf_append, ← hsplit, callbacksOf_perm (List.perm_insertionSort retriedLe due)]
    abel
  | group rest known unknown =>
    cases rest with
    | nil =>
      cases h
      rw [heldBy_append, heldBy_map fun b => rfl]
      have hknown : heldBy ((groups known).map fun e => Job.pool e.1 e.2) = callbacksOf (known.map Prod.snd) := by
        unfold heldBy
        rw [List.flatMap_map]
        exact callbacksOf_perm (perm_groups known)
      rw [hknown]
      show s.ran + s.shared + _ = s.ran + s.shared + callbacksOf ([] ++ known.map Prod.snd ++ unknown)
      rw [List.nil_append, callbacksOf_append]
      abel
    | cons b rest =>
      simp only [runSender] at h
      split at h
      · cases h
        rw [heldBy_cons, heldBy_nil]
        show s.ran + s.shared + (callbacksOf (rest ++ (known ++ [(_, b)]).map Prod.snd ++ unknown) + 0) =
          s.ran + s.shared + callbacksOf (b :: rest ++ known.map Prod.snd ++ unknown)
        rw [List.map_append, callbacksOf_append, callbacksOf_append, callbacksOf_append, callbacksOf_append,
          callbacksOf_append, callbacksOf_cons b rest]
        show _ + (_ + (_ + callbacksOf [b]) + _ + 0) = _
        abel
      · cases h
        rw [heldBy_cons, heldBy_nil]
        show s.ran + s.shared + (callbacksOf (rest ++ known.map Prod.snd ++ (unknown ++ [b])) + 0) =
          s.ran + s.shared + callbacksOf (b :: rest ++ known.map Prod.snd ++ unknown)
        rw [callbacksOf_append, callbacksOf_append, callbacksOf_append, callbacksOf_append,
          callbacksOf_append, callbacksOf_cons b rest]
        abel
  | pool broker batches =>
    simp only [runSender] at h
    split at h
    · cases h
      rw [heldBy_poolRounds]
      rfl
    · split at h
      · cases h
        rw [heldBy_poolRounds]
        unfold openPool
        simp only
        show s.ran + (_ + _ + ((s.pipes ++ _).map Pipe.held).sum) + callbacksOf batches = _
        have hnew : ∀ ids : List PipeId, ((ids.map (newPipe broker)).map Pipe.held).sum = 0 := by
          intro ids
          rw [List.map_map]
          exact List.sum_eq_zero fun x hx => by
            obtain ⟨i, -, rfl⟩ := List.mem_map.1 hx
            rfl
        rw [List.map_append, List.sum_append, hnew, add_zero]
        rfl
      · cases h
        rw [heldBy_map fun b => rfl]
        rfl
  | round pipe batches =>
    cases h
    have hsplit := callbacksOf_filter (isBatchTimedOut env.now cfg.senderDeliveryTimeoutMs) batches
    have hjobs : ∀ valid, heldBy (if valid = [] then [] else [Job.count pipe valid]) = callbacksOf valid := by
      intro valid
      split
      · rename_i hnil
        rw [hnil]
        rfl
      · simp [Job.batches]
    simp only
    rw [ran_complete, hjobs]
    show s.ran + _ + s.shared + _ = s.ran + s.shared + callbacksOf batches
    rw [← hsplit]
    abel
  | count pipe valid =>
    cases h
    have hsame := shared_modifyPipe_same (s := s) (i := pipe)
      (f := fun p => { p with bpInFlightCount := p.bpInFlightCount + 1 }) fun p => rfl
    rw [hsame]
    show s.ran + s.shared + (callbacksOf (valid ++ [])) = _
    rw [List.append_nil]
    rfl
  | write pipe valid =>
    simp only [runSender] at h
    split at h
    · rename_i p hp
      split at h
      · cases h
        have hmove := shared_modifyPipe (s := s) (f := fun p => { p with outbox := p.outbox ++ [valid] })
          (x := 0) (y := callbacksOf valid) hp (by
            unfold Pipe.held
            simp only [List.flatten_append, List.flatten_singleton, callbacksOf_append]
            abel)
        rw [add_zero] at hmove
        rw [hmove]
        show s.ran + (s.shared + callbacksOf valid) + 0 = s.ran + s.shared + callbacksOf valid
        abel
      · cases h
    · cases h
  | notBusy =>
    cases h
    rfl
  | _ => cases h

/-- A job on a pipe takes from its channels what it gives to the next ones. -/
theorem shared_take {p : Pipe} {x : Multiset RecordCallback}
    (hp : s.pipes[i]? = some p) (h : (f p).held + x = p.held) : (modifyPipe s i f).shared + x = s.shared := by
  have hmove := shared_modifyPipe (y := 0) hp (h.trans (add_zero _).symm)
  rwa [add_zero] at hmove

theorem runPipe_conserves {p : Pipe} {j : Job}
    (hp : s.pipes[i]? = some p) (hj : j.pipe = some i) (hreply : Replied env p j)
    (h : runPipe env s p j = some r) : Conserves s j r := by
  unfold Conserves
  cases j with
  | writerRead pipe =>
    cases hj
    simp only [runPipe] at h
    split at h
    · cases h
    · rename_i out rest hout
      cases h
      have htake := shared_take (x := callbacksOf out) (f := fun p => { p with outbox := rest }) hp (by
        unfold Pipe.held
        simp only [hout, List.flatten_cons, callbacksOf_append]
        abel)
      have hjobs : heldBy (if env.writes = true then [Job.handOff i out, Job.writerRead i]
          else out.map (Job.retryOrFail .wireWrite) ++ [Job.countDown i, Job.writerRead i]) = callbacksOf out := by
        split
        · simp [Job.batches]
        · rw [heldBy_append, heldBy_map fun b => rfl]
          exact add_zero _
      show s.ran + _ + _ = s.ran + s.shared + 0
      rw [hjobs, add_assoc, htake, add_zero]
  | handOff pipe batches =>
    cases hj
    cases h
    have hmove := shared_modifyPipe (x := 0) (y := callbacksOf batches)
      (f := fun p => { p with inFlight := p.inFlight ++ [batches] }) hp (by
        unfold Pipe.held
        simp only [List.flatten_append, List.flatten_singleton, callbacksOf_append]
        abel)
    show s.ran + _ + 0 = s.ran + s.shared + callbacksOf batches
    rw [add_zero] at hmove ⊢
    rw [hmove, add_assoc]
  | receive pipe =>
    cases hj
    simp only [runPipe] at h
    split at h
    · cases h
      have htake := shared_take (x := callbacksOf p.inFlight.flatten) (f := fun p => { p with inFlight := [] }) hp (by
        unfold Pipe.held
        simp only [List.flatten_nil, callbacksOf_nil]
        abel)
      show s.ran + _ + heldBy (_ ++ [Job.resetCount i, Job.forget i]) = s.ran + s.shared + 0
      rw [heldBy_append, heldBy_map fun b => rfl]
      show s.ran + _ + (_ + 0) = _
      rw [add_zero, add_zero, add_assoc, htake]
    · rename_i why _
      split at h
      · cases h
      · rename_i pp rest hin
        cases h
        have htake := shared_take (x := callbacksOf pp) (f := fun p => { p with inFlight := rest }) hp (by
          unfold Pipe.held
          simp only [hin, List.flatten_cons, callbacksOf_append]
          abel)
        show s.ran + _ + heldBy (_ ++ [Job.countDown i, Job.receive i]) = s.ran + s.shared + 0
        rw [heldBy_append, heldBy_map fun b => rfl]
        show s.ran + _ + (_ + 0) = _
        rw [add_zero, add_zero, add_assoc, htake]
    · rename_i parts hparts
      split at h
      · cases h
      · rename_i pp rest hin
        cases h
        have htake := shared_take (x := callbacksOf pp) (f := fun p => { p with inFlight := rest }) hp (by
          unfold Pipe.held
          simp only [hin, List.flatten_cons, callbacksOf_append]
          abel)
        have hnames : NamesOnce pp parts := hreply parts hparts pp (by rw [hin]; rfl)
        show s.ran + _ + heldBy (_ ++ [Job.countDown i, Job.receive i]) = s.ran + s.shared + 0
        rw [heldBy_append, heldBy_processProduceResponse hnames]
        show s.ran + _ + (_ + 0) = _
        rw [add_zero, add_zero, add_assoc, htake]
  | resetCount pipe =>
    cases h
    have hsame := shared_modifyPipe_same (s := s) (i := pipe)
      (f := fun p => { p with bpInFlightCount := 0 }) fun p => rfl
    show s.ran + _ + 0 = s.ran + s.shared + 0
    rw [hsame]
  | forget pipe =>
    cases h
    rfl
  | countDown pipe =>
    cases h
    have hsame := shared_modifyPipe_same (s := s) (i := pipe)
      (f := fun p => { p with bpInFlightCount := p.bpInFlightCount - 1 }) fun p => rfl
    show s.ran + _ + 0 = s.ran + s.shared + 0
    rw [hsame]
  | _ => cases h

end Wireform.Kafka.Sender

/-
  The order of a partition's batches.

  The batches of a partition are numbered as they are allocated.  A job moves batches
  from place to place; in a turn of the sender the order of each partition stays what
  it was, but for the sort of the batches that are due.

  * `Earlier`, `InOrder`: the order of allocation;
  * `old_step`: what left the accumulator had left it before, or was fresh;
  * `runSender_sends`: the jobs that send hand over each partition in its order;
  * `sorted_inOrder`: the sort puts each partition in order, if its sequence numbers do
    not wrap.
-/
import Wireform.Kafka.Sender.Lost

namespace Wireform.Kafka.Sender

open Transition

variable {cfg : Config} {env : Env} {s s' t : SenderState} {j : Job} {r : SenderState × List Job}
  {x y b : ProducerBatch} {alloc : ProducerBatch → Nat}

/-! ## Earlier batches -/

/-- The batch as it was allocated. -/
def origin (b : ProducerBatch) : ProducerBatch := { b with batchAttempts := 0 }

/-- `x` is of the partition, id and epoch of `y`, and was allocated before it. -/
def Earlier (alloc : ProducerBatch → Nat) (x y : ProducerBatch) : Prop :=
  x.batchTopicPartition = y.batchTopicPartition ∧ x.batchProducerId = y.batchProducerId ∧
    x.batchProducerEpoch = y.batchProducerEpoch ∧ alloc (origin x) < alloc (origin y)

instance (x y : ProducerBatch) : Decidable (Earlier alloc x y) := inferInstanceAs (Decidable (_ ∧ _ ∧ _ ∧ _))

theorem earlier_congr {x' y' : ProducerBatch} (hx : origin x = origin x') (hy : origin y = origin y') :
    Earlier alloc x y ↔ Earlier alloc x' y' := by
  show Earlier alloc (origin x) (origin y) ↔ Earlier alloc (origin x') (origin y')
  rw [hx, hy]

/-- No batch of the list is earlier than one before it. -/
def InOrder (alloc : ProducerBatch → Nat) (bs : List ProducerBatch) : Prop :=
  bs.Pairwise fun x y => ¬ Earlier alloc y x

/-! ## Where batches come from -/

/-- The fresh batches of a job. -/
def Job.fresh : Job → List ProducerBatch
  | .hold _ fresh => fresh
  | _ => []

/-- The batches of a job that are not fresh. -/
def Job.old : Job → List ProducerBatch
  | .hold due _ => due
  | j => j.batches

namespace SenderState

/-- The batches that left the accumulator, but for the fresh ones. -/
def old (s : SenderState) : List ProducerBatch := s.stored ++ s.jobs.flatMap Job.old

/-- The fresh batches, and behind them those of the accumulator. -/
def fresh (s : SenderState) : List ProducerBatch := s.sender.flatMap Job.fresh ++ s.accumulator

end SenderState

/-- The batch was there before the job, perhaps with one attempt less. -/
def Came (s : SenderState) (j : Job) (x : ProducerBatch) : Prop :=
  ∃ y, (y ∈ s.stored ∨ y ∈ j.batches) ∧ origin x = origin y

theorem came_stored (h : x ∈ s.stored) : Came s j x := ⟨x, Or.inl h, rfl⟩

theorem came_job (h : x ∈ j.batches) : Came s j x := ⟨x, Or.inr h, rfl⟩

theorem mem_old (h : x ∈ j.old) : x ∈ j.batches := by
  cases j with
  | hold due fresh => exact List.mem_append_left _ h
  | _ => exact h

theorem mem_batches (h : x ∈ j.batches) : x ∈ j.old ∨ x ∈ j.fresh := by
  cases j with
  | hold due fresh => exact List.mem_append.1 h
  | _ => exact Or.inl h

/-- A job moves batches about, and makes none. -/
structure Moves (s : SenderState) (j : Job) (r : SenderState × List Job) : Prop where
  stored : ∀ x ∈ r.1.stored, Came s j x
  jobs : ∀ j' ∈ r.2, ∀ x ∈ j'.old, Came s j x

/-- A job that leaves the queue and the channels. -/
theorem Moves.jobs_only (hstored : r.1.stored = s.stored) (hjobs : ∀ j' ∈ r.2, ∀ x ∈ j'.old, Came s j x) :
    Moves s j r :=
  ⟨fun x hx => came_stored (by rwa [hstored] at hx), hjobs⟩

theorem runBatch_moves (h : runBatch cfg env s j = some r) : Moves s j r := by
  cases j with
  | retryOrFail why b =>
    simp only [runBatch] at h
    split at h
    · cases h
      exact .jobs_only rfl (List.forall_mem_singleton.2 fun x hx => came_job hx)
    · cases h
      refine .jobs_only rfl (List.forall_mem_singleton.2 fun x hx => ⟨b, Or.inr List.mem_cons_self, ?_⟩)
      rw [List.mem_singleton.1 hx]
      rfl
  | enqueueRetry due b =>
    cases h
    refine ⟨fun x hx => ?_, List.forall_mem_nil _⟩
    rcases List.mem_append.1 hx with hx | hx
    · obtain ⟨e, he, rfl⟩ := List.mem_map.1 hx
      rcases List.mem_append.1 he with he | he
      · exact came_stored (List.mem_append_left _ (List.mem_map_of_mem he))
      · rw [List.mem_singleton.1 he]
        exact came_job List.mem_cons_self
    · exact came_stored (List.mem_append_right _ hx)
  | failBatch why b =>
    cases h
    refine .jobs_only ?_ (List.forall_mem_nil _)
    unfold SenderState.stored
    rw [failBatch_queue, (failBatch_unmoved s why b).pipes]
  | succeed off b =>
    cases h
    exact .jobs_only rfl (List.forall_mem_nil _)
  | _ => cases h

variable {bs : List ProducerBatch} {ids : List PipeId} {broker : Broker}

theorem mem_poolRounds_batches {j' : Job}
    (hj : j' ∈ poolRounds cfg ids bs) (hx : x ∈ j'.batches) : x ∈ bs := by
  have hfilter := filter_poolRounds cfg ids bs (fun b => b.batchTopicPartition = x.batchTopicPartition)
    fun a b ha hb => (of_decide_eq_true ha).trans (of_decide_eq_true hb).symm
  have hmem : x ∈ ((poolRounds cfg ids bs).flatMap Job.batches).filter
      fun b => b.batchTopicPartition = x.batchTopicPartition :=
    List.mem_filter.2 ⟨List.mem_flatMap.2 ⟨j', hj, hx⟩, by simp⟩
  rw [hfilter] at hmem
  exact (List.mem_filter.1 hmem).1

theorem poolRounds_old {j' : Job}
    (hj : j' ∈ poolRounds cfg ids bs) : j'.old = j'.batches := by
  obtain ⟨e, -, he⟩ := List.mem_flatMap.1 hj
  obtain ⟨r, -, rfl⟩ := List.mem_map.1 he
  rfl

/-- What is stored after a change of a pipe. -/
theorem mem_stored_modifyPipe {i : PipeId} {f : Pipe → Pipe} (h : x ∈ (modifyPipe s i f).stored) :
    x ∈ s.stored ∨ ∃ q, s.pipes[i]? = some q ∧ x ∈ (f q).channels := by
  rcases List.mem_append.1 h with h | h
  · exact Or.inl (List.mem_append_left _ h)
  · obtain ⟨p, hp, hx⟩ := List.mem_flatMap.1 h
    rcases mem_of_mem_modify hp with hp | ⟨q, hq, rfl⟩
    · exact Or.inl (List.mem_append_right _ (List.mem_flatMap.2 ⟨p, hp, hx⟩))
    · exact Or.inr ⟨q, hq, hx⟩

theorem mem_stored_channels {p : Pipe} (hp : p ∈ s.pipes) (hx : x ∈ p.channels) : x ∈ s.stored :=
  List.mem_append_right _ (List.mem_flatMap.2 ⟨p, hp, hx⟩)

theorem runSender_moves (h : runSender cfg env s j = some r) : Moves s j r := by
  cases j with
  | loop =>
    cases h
    exact .jobs_only rfl (List.forall_mem_cons.2 ⟨List.forall_mem_nil _, List.forall_mem_singleton.2
      (List.forall_mem_nil _)⟩)
  | poll =>
    cases h
    exact .jobs_only rfl (List.forall_mem_singleton.2 (List.forall_mem_nil _))
  | takeDue hasReady =>
    cases h
    constructor
    · intro x hx
      rcases List.mem_append.1 hx with hx | hx
      · obtain ⟨e, he, rfl⟩ := List.mem_map.1 hx
        exact came_stored (List.mem_append_left _ (List.mem_map_of_mem (List.mem_filter.1 he).1))
      · exact came_stored (List.mem_append_right _ hx)
    · intro j' hj' x hx
      split at hj'
      · rw [List.mem_singleton.1 hj'] at hx
        obtain ⟨e, he, rfl⟩ := List.mem_map.1 hx
        exact came_stored (List.mem_append_left _ (List.mem_map_of_mem (List.mem_filter.1 he).1))
      · cases hj'
  | drain hasReady due =>
    simp only [runSender] at h
    split at h
    · cases h
      exact .jobs_only rfl (List.forall_mem_singleton.2 fun x hx => came_job hx)
    · cases h
      exact .jobs_only rfl (List.forall_mem_singleton.2 fun x hx => came_job hx)
  | hold due fresh =>
    cases h
    constructor
    · intro x hx
      rcases List.mem_append.1 hx with hx | hx
      · obtain ⟨e, he, rfl⟩ := List.mem_map.1 hx
        rcases List.mem_append.1 he with he | he
        · exact came_stored (List.mem_append_left _ (List.mem_map_of_mem he))
        · obtain ⟨f, hf, rfl⟩ := List.mem_map.1 he
          exact came_job (List.mem_append_right _ (List.mem_filter.1 hf).1)
      · exact came_stored (List.mem_append_right _ hx)
    · refine List.forall_mem_singleton.2 fun x hx => came_job ?_
      have hsend : x ∈ toSend due (fresh.filter fun b => ¬ isBehind s.senderRetryQueue b) ++ [] ++ [] := hx
      rw [List.append_nil, List.append_nil] at hsend
      rcases List.mem_append.1 hsend with hx | hx
      · exact List.mem_append_left _ ((List.perm_insertionSort retriedLe due).mem_iff.1 hx)
      · exact List.mem_append_right _ (List.mem_filter.1 hx).1
  | group todo known unknown =>
    cases todo with
    | nil =>
      cases h
      refine .jobs_only rfl fun j' hj' x hx => came_job ?_
      show x ∈ known.map Prod.snd ++ unknown
      rcases List.mem_append.1 hj' with hj' | hj'
      · obtain ⟨b, hb, rfl⟩ := List.mem_map.1 hj'
        rw [List.mem_singleton.1 hx]
        exact List.mem_append_right _ hb
      · obtain ⟨e, he, rfl⟩ := List.mem_map.1 hj'
        exact List.mem_append_left _ ((perm_groups known).mem_iff.1 (List.mem_flatMap.2 ⟨e, he, hx⟩))
    | cons b todo =>
      simp only [runSender] at h
      split at h
      · cases h
        refine .jobs_only rfl (List.forall_mem_singleton.2 fun x hx => came_job ?_)
        simp only [Job.old, Job.batches, List.map_append, List.mem_append, List.map_cons, List.map_nil,
          List.cons_append, List.mem_cons] at hx ⊢
        tauto
      · cases h
        refine .jobs_only rfl (List.forall_mem_singleton.2 fun x hx => came_job ?_)
        simp only [Job.old, Job.batches, List.mem_append, List.cons_append, List.mem_cons] at hx ⊢
        tauto
  | pool broker batches =>
    have hrounds : ∀ ids, ∀ j' ∈ poolRounds cfg ids batches, ∀ x ∈ j'.old, Came s (.pool broker batches) x := by
      intro ids j' hj' x hx
      rw [poolRounds_old hj'] at hx
      exact came_job (mem_poolRounds_batches hj' hx)
    simp only [runSender] at h
    split at h
    · cases h
      exact .jobs_only rfl (hrounds _)
    · split at h
      · cases h
        refine .jobs_only ?_ (hrounds _)
        have hnew : ∀ ids : List PipeId, (ids.map (newPipe broker)).flatMap Pipe.channels = [] := by
          intro ids
          rw [List.flatMap_map]
          exact List.flatMap_eq_nil_iff.2 fun i _ => rfl
        show _ ++ (s.pipes ++ _).flatMap Pipe.channels = _
        rw [List.flatMap_append, hnew, List.append_nil]
        rfl
      · cases h
        refine .jobs_only rfl fun j' hj' x hx => came_job ?_
        obtain ⟨b, hb, rfl⟩ := List.mem_map.1 hj'
        rw [List.mem_singleton.1 hx]
        exact hb
  | round pipe batches =>
    cases h
    refine .jobs_only rfl fun j' hj' x hx => came_job ?_
    split at hj'
    · cases hj'
    · rw [List.mem_singleton.1 hj'] at hx
      exact (List.mem_filter.1 hx).1
  | count pipe valid =>
    cases h
    refine ⟨fun x hx => came_stored ?_, List.forall_mem_singleton.2 fun x hx => came_job hx⟩
    exact mem_modifyPipe_stored (f := fun p => { p with bpInFlightCount := p.bpInFlightCount + 1 }) (fun p => rfl) hx
  | write pipe valid =>
    simp only [runSender] at h
    split at h
    · split at h
      · cases h
        refine ⟨fun x hx => ?_, List.forall_mem_nil _⟩
        rcases mem_stored_modifyPipe hx with hx | ⟨q, hq, hx⟩
        · exact came_stored hx
        · rcases List.mem_append.1 hx with hx | hx
          · have hout : x ∈ (q.outbox ++ [valid]).flatten := hx
            rw [List.flatten_append, List.flatten_singleton] at hout
            rcases List.mem_append.1 hout with hx | hx
            · exact came_stored (mem_stored_channels (List.mem_of_getElem? hq) (List.mem_append_left _ hx))
            · exact came_job hx
          · exact came_stored (mem_stored_channels (List.mem_of_getElem? hq) (List.mem_append_right _ hx))
      · cases h
    · cases h
  | notBusy =>
    cases h
    exact .jobs_only rfl (List.forall_mem_singleton.2 (List.forall_mem_nil _))
  | _ => cases h

/-- A change of a pipe that leaves nothing new in its channels. -/
theorem came_modifyPipe {i : PipeId} {f : Pipe → Pipe} (hf : ∀ q ∈ s.pipes, ∀ x ∈ (f q).channels, Came s j x) :
    ∀ x ∈ (modifyPipe s i f).stored, Came s j x := by
  intro x hx
  rcases mem_stored_modifyPipe hx with hx | ⟨q, hq, hx⟩
  · exact came_stored hx
  · exact hf q (List.mem_of_getElem? hq) x hx

/-- One job for each of some batches, and jobs without any. -/
theorem came_map {f : ProducerBatch → Job} {last : List Job}
    (hf : ∀ b, (f b).old = [b]) (hlast : ∀ j' ∈ last, j'.old = []) (hbs : ∀ x ∈ bs, Came s j x) :
    ∀ j' ∈ bs.map f ++ last, ∀ x ∈ j'.old, Came s j x := by
  intro j' hj' x hx
  rcases List.mem_append.1 hj' with hj' | hj'
  · obtain ⟨b, hb, rfl⟩ := List.mem_map.1 hj'
    rw [hf, List.mem_singleton] at hx
    rw [hx]
    exact hbs b hb
  · rw [hlast j' hj'] at hx
    cases hx

theorem runPipe_moves {p : Pipe} (hp : p ∈ s.pipes) (h : runPipe env s p j = some r) : Moves s j r := by
  have hchannels : ∀ q ∈ s.pipes, ∀ x ∈ q.channels, Came s j x := fun q hq x hx =>
    came_stored (mem_stored_channels hq hx)
  have hout : ∀ x ∈ p.outbox.flatten, Came s j x := fun x hx => hchannels p hp x (List.mem_append_left _ hx)
  have hin : ∀ x ∈ p.inFlight.flatten, Came s j x := fun x hx => hchannels p hp x (List.mem_append_right _ hx)
  have htwo : ∀ {a b : Job}, a.old = [] → b.old = [] → ∀ j' ∈ [a, b], j'.old = [] := fun ha hb =>
    List.forall_mem_cons.2 ⟨ha, List.forall_mem_singleton.2 hb⟩
  cases j with
  | writerRead pipe =>
    simp only [runPipe] at h
    split at h
    · cases h
    · rename_i out rest heq
      rw [heq] at hout
      cases h
      constructor
      · refine came_modifyPipe fun q hq x hx => ?_
        rcases List.mem_append.1 hx with hx | hx
        · exact hout x (List.mem_append_right _ hx)
        · exact hchannels q hq x (List.mem_append_right _ hx)
      · simp only
        split
        · refine List.forall_mem_cons.2 ⟨fun x hx => hout x (List.mem_append_left _ hx), ?_⟩
          exact List.forall_mem_singleton.2 (List.forall_mem_nil _)
        · exact came_map (fun b => rfl) (htwo rfl rfl) fun x hx => hout x (List.mem_append_left _ hx)
  | handOff pipe batches =>
    cases h
    refine ⟨came_modifyPipe fun q hq x hx => ?_, List.forall_mem_nil _⟩
    rcases List.mem_append.1 hx with hx | hx
    · exact hchannels q hq x (List.mem_append_left _ hx)
    · have hflat : x ∈ (q.inFlight ++ [batches]).flatten := hx
      rw [List.flatten_append, List.flatten_singleton] at hflat
      rcases List.mem_append.1 hflat with hx | hx
      · exact hchannels q hq x (List.mem_append_right _ hx)
      · exact came_job hx
  | receive pipe =>
    have hrest : ∀ {pp : List ProducerBatch} {rest : List (List ProducerBatch)}, p.inFlight = pp :: rest →
        (∀ x ∈ pp, Came s (.receive pipe) x) ∧
          ∀ x ∈ (modifyPipe s pipe fun p => { p with inFlight := rest }).stored, Came s (.receive pipe) x := by
      intro pp rest heq
      rw [heq] at hin
      refine ⟨fun x hx => hin x (List.mem_append_left _ hx), came_modifyPipe fun q hq x hx => ?_⟩
      rcases List.mem_append.1 hx with hx | hx
      · exact hchannels q hq x (List.mem_append_left _ hx)
      · exact hin x (List.mem_append_right _ hx)
    simp only [runPipe] at h
    split at h
    · cases h
      refine ⟨came_modifyPipe fun q hq x hx => ?_, came_map (fun b => rfl) (htwo rfl rfl) hin⟩
      rcases List.mem_append.1 hx with hx | hx
      · exact hchannels q hq x (List.mem_append_left _ hx)
      · cases hx
    · split at h
      · cases h
      · rename_i pp rest heq
        cases h
        exact ⟨(hrest heq).2, came_map (fun b => rfl) (htwo rfl rfl) (hrest heq).1⟩
    · split at h
      · cases h
      · rename_i pp rest heq
        cases h
        refine ⟨(hrest heq).2, fun j' hj' x hx => ?_⟩
        rcases List.mem_append.1 hj' with hj' | hj'
        · obtain ⟨part, -, hpart⟩ := List.mem_flatMap.1 hj'
          obtain ⟨b, hb, rfl⟩ := List.mem_map.1 hpart
          have hb' := (List.mem_filter.1 (List.mem_reverse.1 hb)).1
          have hx' := mem_old hx
          rw [outcome_batches, List.mem_singleton] at hx'
          rw [hx']
          exact (hrest heq).1 b hb'
        · rw [htwo rfl rfl j' hj'] at hx
          cases hx
  | resetCount pipe =>
    cases h
    exact ⟨came_modifyPipe fun q hq x hx => hchannels q hq x hx, List.forall_mem_nil _⟩
  | forget pipe =>
    cases h
    exact .jobs_only rfl (List.forall_mem_nil _)
  | countDown pipe =>
    cases h
    exact ⟨came_modifyPipe fun q hq x hx => hchannels q hq x hx, List.forall_mem_nil _⟩
  | _ => cases h

/-- What left the accumulator had left it before the step, or was fresh. -/
theorem old_step (hdid : Did cfg env s s' j r) (hx : x ∈ s'.old) :
    ∃ y, (y ∈ s.old ∨ y ∈ j.fresh) ∧ origin x = origin y := by
  have hmoves : Moves s j r := by
    rcases hdid.ran with hr | hr | ⟨p, hp, hr⟩
    · exact runBatch_moves hr
    · exact runSender_moves hr
    · exact runPipe_moves hp hr
  have hcame : Came s j x → ∃ y, (y ∈ s.old ∨ y ∈ j.fresh) ∧ origin x = origin y := by
    rintro ⟨y, hy | hy, he⟩
    · exact ⟨y, Or.inl (List.mem_append_left _ hy), he⟩
    · refine ⟨y, (mem_batches hy).imp_left fun ho => ?_, he⟩
      exact List.mem_append_right _ (List.mem_flatMap.2 ⟨j, hdid.job, ho⟩)
  rcases List.mem_append.1 hx with hx | hx
  · exact hcame (hmoves.stored x (hdid.stored x hx))
  · obtain ⟨j', hj', hx⟩ := List.mem_flatMap.1 hx
    rcases hdid.jobs j' hj' with hj' | hj' | ⟨i, rfl | rfl⟩
    · exact ⟨x, Or.inl (List.mem_append_right _ (List.mem_flatMap.2 ⟨j', hj', hx⟩)), rfl⟩
    · exact hcame (hmoves.jobs j' hj' x hx)
    · cases hx
    · cases hx

/-! ## A turn of the sender -/

/-- The jobs that gather the batches of a turn. -/
def Job.gathers : Job → Bool
  | .poll | .takeDue _ | .drain .. | .hold .. => true
  | _ => false

/-- The jobs that send them. -/
def Job.sends : Job → Bool
  | .loop | .notBusy | .poll | .takeDue _ | .drain .. | .hold .. => false
  | _ => true

/-- The batches that a job of the sender is to hand to a pipe. -/
def Job.toHand : Job → List ProducerBatch
  | .drain _ due => due
  | .hold due _ => due
  | .group rest known _ => known.map Prod.snd ++ rest
  | .pool _ batches => batches
  | .round _ batches => batches
  | .count _ valid => valid
  | .write _ valid => valid
  | _ => []

/-- The same, of the jobs that have them in their order. -/
def Job.lined (j : Job) : List ProducerBatch := if j.sends then j.toHand else []

/-- A round has a partition at most once. -/
def Job.Round : Job → Prop
  | .round _ batches => (batches.map ProducerBatch.batchTopicPartition).Nodup
  | .count _ valid => (valid.map ProducerBatch.batchTopicPartition).Nodup
  | .write _ valid => (valid.map ProducerBatch.batchTopicPartition).Nodup
  | _ => True

/-- The leaders that are known are the one broker. -/
def Job.ToBroker (broker : Broker) : Job → Prop
  | .group _ known _ => ∀ e ∈ known, e.1 = broker
  | _ => True

/-- The sender loops, gathers batches or sends them. -/
inductive TurnAt : List Job → Prop
  | loops : TurnAt [.loop]
  | gathers {j : Job} : j.gathers = true → TurnAt [j, .notBusy]
  | sends {js : List Job} : (∀ j ∈ js, j.sends = true) → TurnAt (js ++ [.notBusy])

theorem sends_fresh (h : j.sends = true) : j.fresh = [] := by
  cases j with
  | hold due fresh => cases h
  | _ => rfl

theorem isBatch_sends (h : j.isBatch = true) : j.sends = true ∧ j.toHand = [] ∧ j.Round ∧
    ∀ broker, j.ToBroker broker := by
  cases j with
  | retryOrFail => exact ⟨rfl, rfl, trivial, fun _ => trivial⟩
  | enqueueRetry => exact ⟨rfl, rfl, trivial, fun _ => trivial⟩
  | failBatch => exact ⟨rfl, rfl, trivial, fun _ => trivial⟩
  | succeed => exact ⟨rfl, rfl, trivial, fun _ => trivial⟩
  | _ => cases h

/-- A sending job is followed by sending jobs, which hand over what it was to, each
    partition in its order. -/
structure Sends (broker : Broker) (j : Job) (new : List Job) : Prop where
  sends : ∀ j' ∈ new, j'.sends = true
  order : ∀ tp, ((new.flatMap Job.toHand).filter fun b => b.batchTopicPartition = tp).Sublist
    (j.toHand.filter fun b => b.batchTopicPartition = tp)
  rounds : j.Round → ∀ j' ∈ new, j'.Round
  broker : ∀ j' ∈ new, j'.ToBroker broker

/-- Jobs on batches hand over nothing. -/
theorem sends_of_isBatch {new : List Job} (h : ∀ j' ∈ new, j'.isBatch = true) :
    Sends broker j new := by
  refine ⟨fun j' hj' => (isBatch_sends (h j' hj')).1, fun tp => ?_, fun _ j' hj' => (isBatch_sends (h j' hj')).2.2.1,
    fun j' hj' => (isBatch_sends (h j' hj')).2.2.2 broker⟩
  rw [List.flatMap_eq_nil_iff.2 fun j' hj' => (isBatch_sends (h j' hj')).2.1]
  exact List.nil_sublist _

/-- The batches of one broker are grouped as they are. -/
theorem groups_one {known : List (Broker × ProducerBatch)} (h : ∀ e ∈ known, e.1 = broker) :
    (groups known).flatMap Prod.snd = known.map Prod.snd := by
  have hknown : known = (known.map Prod.snd).map fun b => (broker, b) := by
    rw [List.map_map]
    refine (List.map_id known).symm.trans (List.map_congr_left fun e he => ?_)
    rw [← h e he]
    rfl
  have hfilter := filter_groups (fun _ => broker) (known.map Prod.snd) (fun _ => true) broker fun _ _ => rfl
  rw [List.filter_true, List.filter_true, ← hknown] at hfilter
  exact hfilter

theorem poolRounds_sends {broker a : Broker} {batches : List ProducerBatch} :
    Sends broker (.pool a batches) (poolRounds cfg ids batches) := by
  have hround : ∀ j' ∈ poolRounds cfg ids batches, ∃ i x, j' = .round i x ∧
      (x.map ProducerBatch.batchTopicPartition).Nodup := by
    intro j' hj'
    obtain ⟨e, -, he⟩ := List.mem_flatMap.1 hj'
    obtain ⟨x, hx, rfl⟩ := List.mem_map.1 he
    refine ⟨_, x, rfl, ?_⟩
    have hnodup : ((x.map ProducerBatch.batchTopicPartition).map TopicPartition.key).Nodup := by
      rw [List.map_map]
      exact nodup_of_mem_rounds hx
    exact List.Nodup.of_map _ hnodup
  refine ⟨fun j' hj' => ?_, fun tp => ?_, fun _ j' hj' => ?_, fun j' hj' => ?_⟩
  · obtain ⟨i, x, rfl, -⟩ := hround j' hj'
    rfl
  · have hbatches : (poolRounds cfg ids batches).flatMap Job.toHand =
        (poolRounds cfg ids batches).flatMap Job.batches :=
      List.flatMap_congr fun j' hj' => by
        obtain ⟨i, x, rfl, -⟩ := hround j' hj'
        rfl
    rw [hbatches, filter_poolRounds cfg ids batches _ fun a b ha hb =>
      (of_decide_eq_true ha).trans (of_decide_eq_true hb).symm]
    exact List.Sublist.refl _
  · obtain ⟨i, x, rfl, hnodup⟩ := hround j' hj'
    exact hnodup
  · obtain ⟨i, x, rfl, -⟩ := hround j' hj'
    trivial

theorem runSender_sends (hj : j.sends = true) (hone : ∀ b ∈ env.leader, b = broker)
    (hbroker : j.ToBroker broker) (h : runSender cfg env s j = some r) :
    Sends broker j r.2 ∧ r.1.senderRetryQueue = s.senderRetryQueue ∧ r.1.accumulator = s.accumulator := by
  have hsub : ∀ {xs ys : List ProducerBatch}, xs.Sublist ys → ∀ tp,
      (xs.filter fun b => b.batchTopicPartition = tp).Sublist (ys.filter fun b => b.batchTopicPartition = tp) :=
    fun hs tp => hs.filter _
  have hretry : ∀ (why : Failure) (bs : List ProducerBatch), ∀ j' ∈ bs.map (Job.retryOrFail why), j'.isBatch = true := by
    intro why bs j' hj'
    obtain ⟨b, -, rfl⟩ := List.mem_map.1 hj'
    rfl
  cases j with
  | group todo known unknown =>
    cases todo with
    | nil =>
      cases h
      have hbatch : Sends broker (.group [] known unknown) (unknown.map (Job.retryOrFail .unknownLeader)) :=
        sends_of_isBatch (hretry .unknownLeader unknown)
      have hnil : (unknown.map (Job.retryOrFail .unknownLeader)).flatMap Job.toHand = [] := by
        rw [List.flatMap_map]
        exact List.flatMap_eq_nil_iff.2 fun b _ => rfl
      have hpools : ((groups known).map fun e => Job.pool e.1 e.2).flatMap Job.toHand = known.map Prod.snd := by
        rw [List.flatMap_map, ← groups_one hbroker]
        rfl
      refine ⟨⟨fun j' hj' => ?_, fun tp => ?_, fun _ j' hj' => ?_, fun j' hj' => ?_⟩, rfl, rfl⟩
      · rcases List.mem_append.1 hj' with hj' | hj'
        · exact hbatch.sends j' hj'
        · obtain ⟨e, -, rfl⟩ := List.mem_map.1 hj'
          rfl
      · rw [List.flatMap_append, hnil, hpools]
        exact hsub (List.sublist_append_left _ _) tp
      · rcases List.mem_append.1 hj' with hj' | hj'
        · exact hbatch.rounds trivial j' hj'
        · obtain ⟨e, -, rfl⟩ := List.mem_map.1 hj'
          trivial
      · rcases List.mem_append.1 hj' with hj' | hj'
        · exact hbatch.broker j' hj'
        · obtain ⟨e, -, rfl⟩ := List.mem_map.1 hj'
          trivial
    | cons b todo =>
      simp only [runSender] at h
      split at h
      · rename_i a ha
        cases h
        refine ⟨⟨List.forall_mem_singleton.2 rfl, fun tp => hsub ?_ tp, fun _ => List.forall_mem_singleton.2 trivial,
          List.forall_mem_singleton.2 fun e he => ?_⟩, rfl, rfl⟩
        · rw [List.flatMap_singleton]
          show ((known ++ [(a, b)]).map Prod.snd ++ todo).Sublist (known.map Prod.snd ++ b :: todo)
          rw [List.map_append, List.append_assoc]
          exact List.Sublist.refl _
        · rcases List.mem_append.1 he with he | he
          · exact hbroker e he
          · rw [List.mem_singleton.1 he]
            exact hone a ha
      · cases h
        refine ⟨⟨List.forall_mem_singleton.2 rfl, fun tp => hsub ?_ tp, fun _ => List.forall_mem_singleton.2 trivial,
          List.forall_mem_singleton.2 hbroker⟩, rfl, rfl⟩
        rw [List.flatMap_singleton]
        exact (List.Sublist.refl _).append (List.sublist_cons_self b todo)
  | pool a batches =>
    simp only [runSender] at h
    split at h
    · cases h
      exact ⟨poolRounds_sends, rfl, rfl⟩
    · split at h
      · cases h
        exact ⟨poolRounds_sends, rfl, rfl⟩
      · cases h
        exact ⟨sends_of_isBatch (hretry .openPipe batches), rfl, rfl⟩
  | round pipe batches =>
    cases h
    refine ⟨⟨fun j' hj' => ?_, fun tp => hsub ?_ tp, fun hr j' hj' => ?_, fun j' hj' => ?_⟩, rfl, rfl⟩
    · split at hj'
      · cases hj'
      · rw [List.mem_singleton.1 hj']
        rfl
    · split
      · exact List.nil_sublist _
      · rw [List.flatMap_singleton]
        exact List.filter_sublist
    · split at hj'
      · cases hj'
      · rw [List.mem_singleton.1 hj']
        exact hr.sublist (List.filter_sublist.map _)
    · split at hj'
      · cases hj'
      · rw [List.mem_singleton.1 hj']
        trivial
  | count pipe valid =>
    cases h
    refine ⟨⟨List.forall_mem_singleton.2 rfl, fun tp => hsub ?_ tp, fun hr => List.forall_mem_singleton.2 hr,
      List.forall_mem_singleton.2 trivial⟩, rfl, rfl⟩
    rw [List.flatMap_singleton]
    exact List.Sublist.refl _
  | write pipe valid =>
    simp only [runSender] at h
    split at h
    · split at h
      · cases h
        exact ⟨⟨List.forall_mem_nil _, fun tp => hsub (List.nil_sublist _) tp, fun _ => List.forall_mem_nil _,
          List.forall_mem_nil _⟩, rfl, rfl⟩
      · cases h
    · cases h
  | loop => cases hj
  | poll => cases hj
  | takeDue => cases hj
  | drain => cases hj
  | hold => cases hj
  | notBusy => cases hj
  | _ => cases h

/-! ## Sorting -/

instance : Std.Total retriedLe := ⟨fun _ _ => le_total (α := (String ×ₗ Int) ×ₗ Int) _ _⟩

instance : IsTrans ProducerBatch retriedLe := ⟨fun _ _ _ h h' => le_trans (α := (String ×ₗ Int) ×ₗ Int) h h'⟩

/-- Among the batches that are due, sequence numbers go up as the batches were
    allocated; those with equal ones are in that order in the queue. -/
def Unwrapped (alloc : ProducerBatch → Nat) (due : List ProducerBatch) : Prop :=
  (∀ x ∈ due, ∀ y ∈ due, Earlier alloc x y → x.batchBaseSequence ≤ y.batchBaseSequence) ∧
    due.Pairwise fun x y => x.batchBaseSequence = y.batchBaseSequence → ¬ Earlier alloc y x

theorem retriedLe_sequence (h : retriedLe x y) (htp : x.batchTopicPartition = y.batchTopicPartition) :
    x.batchBaseSequence ≤ y.batchBaseSequence := by
  unfold retriedLe at h
  rw [Prod.Lex.toLex_le_toLex, htp] at h
  rcases h with h | h
  · exact absurd h (lt_irrefl _)
  · exact Int32.le_iff_toInt_le.2 h.2

/-- **The sort puts each partition's batches in order.** -/
theorem sorted_inOrder {due : List ProducerBatch} (h : Unwrapped alloc due) :
    InOrder alloc (due.insertionSort retriedLe) := by
  obtain ⟨hseq, hequal⟩ := h
  have hstable : (due.insertionSort retriedLe).Pairwise fun x y =>
      x.batchTopicPartition = y.batchTopicPartition → x.batchBaseSequence = y.batchBaseSequence →
        ¬ Earlier alloc y x := by
    refine pairwise_of_filter (fun b => (b.batchTopicPartition, b.batchBaseSequence))
      (fun _ _ hne htp hs => absurd (Prod.ext htp hs) hne) fun k => ?_
    rw [filter_insertionSort retriedLe _ fun a b ha hb => ?_]
    · exact (hequal.imp fun hxy _ hs => hxy hs).sublist List.filter_sublist
    · have hk := (of_decide_eq_true ha).trans (of_decide_eq_true hb).symm
      obtain ⟨htp, hs⟩ := Prod.mk.inj hk
      unfold retriedLe
      rw [htp, hs]
  have hmem : ∀ b ∈ due.insertionSort retriedLe, b ∈ due := fun b hb =>
    (List.perm_insertionSort retriedLe due).mem_iff.1 hb
  refine ((List.pairwise_insertionSort retriedLe due).and hstable).imp_of_mem fun {x y} hx hy hxy hlt => ?_
  have hle := retriedLe_sequence hxy.1 hlt.1.symm
  have hge := hseq y (hmem y hy) x (hmem x hx) hlt
  exact hxy.2 hlt.1.symm (Int32.le_antisymm hle hge) hlt

end Wireform.Kafka.Sender

/-
  Lost sequences.

  A batch with a sequence number that fails leaves a gap in its partition, and the
  batches behind it must not be tried again.  `failBatch` records the loss and tells
  the producer, and `retryOrFail` asks for it.

  * `step_known`: one step, with `Guarded` for what the code does not look after: the
    delivery timeout of a round, a record of another epoch, and what is put in the
    retry queue without asking, or too long after;
  * `lost_stops`: over a run every loss is recorded and told, and stops its successors;
  * `timedOut_lost`: the delivery timeout of a round records nothing.
-/
import Wireform.Kafka.Sender.InFlight

namespace Wireform.Kafka.Sender

open Transition

variable {cfg : Config} {env : Env} {s s' t : SenderState} {j : Job} {r : SenderState × List Job}
  {b b' : ProducerBatch}

/-! ## The jobs of all threads -/

def Pipe.jobs (p : Pipe) : List Job := p.writer ++ p.reader

/-- The batches in the channels of a pipe. -/
def Pipe.channels (p : Pipe) : List ProducerBatch := p.outbox.flatten ++ p.inFlight.flatten

namespace SenderState

def jobs (s : SenderState) : List Job := s.sender ++ s.pipes.flatMap Pipe.jobs

/-- The batches in the retry queue and in the channels. -/
def stored (s : SenderState) : List ProducerBatch :=
  s.senderRetryQueue.map RetryEntry.reBatch ++ s.pipes.flatMap Pipe.channels

/-- The jobs of a thread. -/
def jobsOf (s : SenderState) : Thread → List Job
  | .sender => s.sender
  | .writer i => ((s.pipes[i]?).map Pipe.writer).getD []
  | .reader i => ((s.pipes[i]?).map Pipe.reader).getD []

/-- The job that an event does. -/
def next (s : SenderState) : Event → Option Job
  | .ready _ => none
  | .run thread _ => (s.jobsOf thread).head?

end SenderState

/-- A job with its outcome, and the step it makes. -/
structure Did (cfg : Config) (env : Env) (s s' : SenderState) (j : Job) (r : SenderState × List Job) : Prop where
  job : j ∈ s.jobs
  ran : runBatch cfg env s j = some r ∨ runSender cfg env s j = some r ∨ ∃ p ∈ s.pipes, runPipe env s p j = some r
  queue : s'.senderRetryQueue = r.1.senderRetryQueue
  lost : s'.senderLostSequences = r.1.senderLostSequences
  completed : s'.completed = r.1.completed
  told : s'.told = r.1.told
  accumulator : s'.accumulator = r.1.accumulator
  stored : ∀ b ∈ s'.stored, b ∈ r.1.stored
  jobs : ∀ j' ∈ s'.jobs, j' ∈ s.jobs ∨ j' ∈ r.2 ∨ ∃ i, j' = .writerRead i ∨ j' = .receive i

theorem mem_of_mem_modify {α : Type} {f : α → α} {l : List α} {i : Nat} {x : α} (h : x ∈ l.modify i f) :
    x ∈ l ∨ ∃ y, l[i]? = some y ∧ x = f y := by
  obtain ⟨k, hk⟩ := List.getElem?_of_mem h
  rw [List.getElem?_modify] at hk
  obtain ⟨y, hy, rfl⟩ := Option.map_eq_some_iff.1 hk
  by_cases hik : i = k
  · subst hik
    rw [if_pos rfl]
    exact Or.inr ⟨y, hy, rfl⟩
  · rw [if_neg hik]
    exact Or.inl (List.mem_of_getElem? hy)

variable {i : PipeId} {p : Pipe} {f : Pipe → Pipe} {rest : List Job}

/-- A change of a pipe that leaves a part of it. -/
theorem mem_modifyPipe {β : Type} {g : Pipe → List β} {x : β}
    (hf : ∀ p, g (f p) = g p) (h : x ∈ (modifyPipe s i f).pipes.flatMap g) : x ∈ s.pipes.flatMap g := by
  obtain ⟨p, hp, hx⟩ := List.mem_flatMap.1 h
  rcases mem_of_mem_modify hp with hp | ⟨q, hq, rfl⟩
  · exact List.mem_flatMap.2 ⟨p, hp, hx⟩
  · rw [hf] at hx
    exact List.mem_flatMap.2 ⟨q, List.mem_of_getElem? hq, hx⟩

theorem mem_modifyPipe_stored (hf : ∀ p, (f p).channels = p.channels)
    (h : b ∈ (modifyPipe s i f).stored) : b ∈ s.stored := by
  rcases List.mem_append.1 h with h | h
  · exact List.mem_append_left _ h
  · exact List.mem_append_right _ (mem_modifyPipe hf h)

theorem runSender_pipes (h : runSender cfg env s j = some r) :
    ∀ j' ∈ r.1.pipes.flatMap Pipe.jobs, j' ∈ s.pipes.flatMap Pipe.jobs ∨ ∃ i, j' = .writerRead i ∨ j' = .receive i := by
  intro j' hj'
  cases j with
  | drain hasReady due =>
    simp only [runSender] at h
    split at h
    · cases h
      exact Or.inl hj'
    · cases h
      exact Or.inl hj'
  | group todo known unknown =>
    cases todo with
    | nil =>
      cases h
      exact Or.inl hj'
    | cons b todo =>
      simp only [runSender] at h
      split at h
      · cases h
        exact Or.inl hj'
      · cases h
        exact Or.inl hj'
  | pool broker batches =>
    simp only [runSender] at h
    split at h
    · cases h
      exact Or.inl hj'
    · split at h
      · cases h
        have hpipes : j' ∈ (s.pipes ++ (openPool cfg s broker).1.map (newPipe broker)).flatMap Pipe.jobs := hj'
        rw [List.flatMap_append] at hpipes
        rcases List.mem_append.1 hpipes with hp | hp
        · exact Or.inl hp
        · obtain ⟨p, hin, hjp⟩ := List.mem_flatMap.1 hp
          obtain ⟨i, -, rfl⟩ := List.mem_map.1 hin
          rcases List.mem_cons.1 hjp with rfl | hjp
          · exact Or.inr ⟨i, Or.inl rfl⟩
          · exact Or.inr ⟨i, Or.inr (List.mem_singleton.1 hjp)⟩
      · cases h
        exact Or.inl hj'
  | count pipe valid =>
    cases h
    refine Or.inl (mem_modifyPipe ?_ hj')
    exact fun p => rfl
  | write pipe valid =>
    simp only [runSender] at h
    split at h
    · split at h
      · cases h
        refine Or.inl (mem_modifyPipe ?_ hj')
        exact fun p => rfl
      · cases h
    · cases h
  | loop => cases h; exact Or.inl hj'
  | poll => cases h; exact Or.inl hj'
  | takeDue => cases h; exact Or.inl hj'
  | hold => cases h; exact Or.inl hj'
  | round => cases h; exact Or.inl hj'
  | notBusy => cases h; exact Or.inl hj'
  | _ => cases h

/-- What a job of a pipe leaves alone. -/
structure Untouched (s t : SenderState) : Prop where
  queue : t.senderRetryQueue = s.senderRetryQueue
  lost : t.senderLostSequences = s.senderLostSequences
  completed : t.completed = s.completed
  told : t.told = s.told
  sender : t.sender = s.sender
  jobs : ∀ j ∈ t.pipes.flatMap Pipe.jobs, j ∈ s.pipes.flatMap Pipe.jobs

theorem modifyPipe_untouched (hf : ∀ p, (f p).jobs = p.jobs) : Untouched s (modifyPipe s i f) :=
  ⟨rfl, rfl, rfl, rfl, rfl, fun _ hj => mem_modifyPipe hf hj⟩

theorem runPipe_untouched (h : runPipe env s p j = some r) : Untouched s r.1 := by
  cases j with
  | writerRead pipe =>
    simp only [runPipe] at h
    split at h
    · cases h
    · cases h
      exact modifyPipe_untouched fun p => rfl
  | handOff pipe batches =>
    cases h
    exact modifyPipe_untouched fun p => rfl
  | receive pipe =>
    simp only [runPipe] at h
    split at h
    · cases h
      exact modifyPipe_untouched fun p => rfl
    · split at h
      · cases h
      · cases h
        exact modifyPipe_untouched fun p => rfl
    · split at h
      · cases h
      · cases h
        exact modifyPipe_untouched fun p => rfl
  | resetCount pipe =>
    cases h
    exact modifyPipe_untouched fun p => rfl
  | forget pipe =>
    cases h
    exact ⟨rfl, rfl, rfl, rfl, rfl, fun _ hj => hj⟩
  | countDown pipe =>
    cases h
    exact modifyPipe_untouched fun p => rfl
  | _ => cases h

theorem next_writer (hp : s.pipes[i]? = some p) :
    s.next (.run (.writer i) env) = p.writer.head? := by
  simp only [SenderState.next, SenderState.jobsOf, hp]
  rfl

theorem next_reader (hp : s.pipes[i]? = some p) :
    s.next (.run (.reader i) env) = p.reader.head? := by
  simp only [SenderState.next, SenderState.jobsOf, hp]
  rfl

/-- The jobs of a pipe's thread after its first job. -/
theorem mem_thread_jobs {l : List Job}
    (hpipes : ∀ j ∈ t.pipes.flatMap Pipe.jobs, j ∈ s.pipes.flatMap Pipe.jobs) (hsender : t.sender = s.sender)
    (hf : ∀ q, t.pipes[i]? = some q → ∀ j ∈ (f q).jobs, j ∈ l ∨ j ∈ p.jobs ∨ j ∈ q.jobs)
    (hp : s.pipes[i]? = some p) (h : j ∈ (modifyPipe t i f).jobs) : j ∈ s.jobs ∨ j ∈ l := by
  rcases List.mem_append.1 h with h | h
  · have hj : j ∈ t.sender := h
    rw [hsender] at hj
    exact Or.inl (List.mem_append_left _ hj)
  · obtain ⟨x, hx, hj⟩ := List.mem_flatMap.1 h
    rcases mem_of_mem_modify hx with hx | ⟨q, hq, rfl⟩
    · exact Or.inl (List.mem_append_right _ (hpipes j (List.mem_flatMap.2 ⟨x, hx, hj⟩)))
    · rcases hf q hq j hj with hj | hj | hj
      · exact Or.inr hj
      · exact Or.inl (List.mem_append_right _ (List.mem_flatMap.2 ⟨p, List.mem_of_getElem? hp, hj⟩))
      · exact Or.inl (List.mem_append_right _ (hpipes j (List.mem_flatMap.2 ⟨q, List.mem_of_getElem? hq, hj⟩)))

theorem did_sender (hs : s.sender = j :: rest)
    (hr : runBatch cfg env s j = some r ∨ runSender cfg env s j = some r) :
    Did cfg env s { r.1 with sender := r.2 ++ rest } j r := by
  have hmem : j ∈ s.sender := by
    rw [hs]
    exact List.mem_cons_self
  refine ⟨List.mem_append_left _ hmem, ?_, rfl, rfl, rfl, rfl, rfl, fun b hb => hb, fun j' hj' => ?_⟩
  · rcases hr with hr | hr
    · exact Or.inl hr
    · exact Or.inr (Or.inl hr)
  · rcases List.mem_append.1 hj' with hj' | hj'
    · rcases List.mem_append.1 hj' with hj' | hj'
      · exact Or.inr (Or.inl hj')
      · refine Or.inl (List.mem_append_left _ ?_)
        rw [hs]
        exact List.mem_cons_of_mem _ hj'
    · rcases hr with hr | hr
      · have hpipes : j' ∈ r.1.pipes.flatMap Pipe.jobs := hj'
        rw [(runBatch_unmoved hr).1.pipes] at hpipes
        exact Or.inl (List.mem_append_right _ hpipes)
      · rcases runSender_pipes hr j' hj' with hj' | hj'
        · exact Or.inl (List.mem_append_right _ hj')
        · exact Or.inr (Or.inr hj')

/-- What a job of a pipe's thread does to the other jobs. -/
theorem pipeJob_kept (hr : runBatch cfg env s j = some r ∨ runPipe env s p j = some r) :
    (∀ j ∈ r.1.pipes.flatMap Pipe.jobs, j ∈ s.pipes.flatMap Pipe.jobs) ∧ r.1.sender = s.sender := by
  rcases hr with hr | hr
  · have hsame := (runBatch_unmoved hr).1
    rw [hsame.pipes]
    exact ⟨fun _ hj => hj, hsame.sender⟩
  · exact ⟨(runPipe_untouched hr).jobs, (runPipe_untouched hr).sender⟩

theorem did_writer (hp : s.pipes[i]? = some p) (hs : p.writer = j :: rest)
    (hr : runBatch cfg env s j = some r ∨ runPipe env s p j = some r) :
    Did cfg env s (modifyPipe r.1 i fun p => { p with writer := r.2 ++ rest }) j r := by
  have hkept := pipeJob_kept hr
  have hmem : j ∈ p.jobs := by
    refine List.mem_append_left _ ?_
    rw [hs]
    exact List.mem_cons_self
  refine ⟨List.mem_append_right _ (List.mem_flatMap.2 ⟨p, List.mem_of_getElem? hp, hmem⟩), ?_, rfl, rfl, rfl, rfl, rfl,
    fun b hb => ?_, fun j' hj' => ?_⟩
  · rcases hr with hr | hr
    · exact Or.inl hr
    · exact Or.inr (Or.inr ⟨p, List.mem_of_getElem? hp, hr⟩)
  · exact mem_modifyPipe_stored (f := fun p => { p with writer := r.2 ++ rest }) (fun p => rfl) hb
  · refine (mem_thread_jobs (l := r.2) hkept.1 hkept.2 (fun q hq k hk => ?_) hp hj').imp_right Or.inl
    rcases List.mem_append.1 hk with hk | hk
    · rcases List.mem_append.1 hk with hk | hk
      · exact Or.inl hk
      · refine Or.inr (Or.inl (List.mem_append_left _ ?_))
        rw [hs]
        exact List.mem_cons_of_mem _ hk
    · exact Or.inr (Or.inr (List.mem_append_right _ hk))

theorem did_reader (hp : s.pipes[i]? = some p) (hs : p.reader = j :: rest)
    (hr : runBatch cfg env s j = some r ∨ runPipe env s p j = some r) :
    Did cfg env s (modifyPipe r.1 i fun p => { p with reader := r.2 ++ rest }) j r := by
  have hkept := pipeJob_kept hr
  have hmem : j ∈ p.jobs := by
    refine List.mem_append_right _ ?_
    rw [hs]
    exact List.mem_cons_self
  refine ⟨List.mem_append_right _ (List.mem_flatMap.2 ⟨p, List.mem_of_getElem? hp, hmem⟩), ?_, rfl, rfl, rfl, rfl, rfl,
    fun b hb => ?_, fun j' hj' => ?_⟩
  · rcases hr with hr | hr
    · exact Or.inl hr
    · exact Or.inr (Or.inr ⟨p, List.mem_of_getElem? hp, hr⟩)
  · exact mem_modifyPipe_stored (f := fun p => { p with reader := r.2 ++ rest }) (fun p => rfl) hb
  · refine (mem_thread_jobs (l := r.2) hkept.1 hkept.2 (fun q hq k hk => ?_) hp hj').imp_right Or.inl
    rcases List.mem_append.1 hk with hk | hk
    · exact Or.inr (Or.inr (List.mem_append_left _ hk))
    · rcases List.mem_append.1 hk with hk | hk
      · exact Or.inl hk
      · refine Or.inr (Or.inl (List.mem_append_right _ ?_))
        rw [hs]
        exact List.mem_cons_of_mem _ hk

theorem next_sender (hs : s.sender = j :: rest) : s.next (.run .sender env) = some j := by
  show s.sender.head? = _
  rw [hs]
  rfl

/-- A step does the next job of its thread. -/
theorem did_of_steps {thread : Thread} (h : Steps cfg s (.run thread env) s') :
    ∃ j r, s.next (.run thread env) = some j ∧ Did cfg env s s' j r := by
  cases h with
  | @sender _ j rest r hs hr => exact ⟨j, r, next_sender hs, did_sender hs hr⟩
  | @writer i _ p j rest r hp hs hr =>
    refine ⟨j, r, ?_, did_writer hp hs hr⟩
    rw [next_writer hp, hs]
    rfl
  | @reader i _ p j rest r hp hs hr =>
    refine ⟨j, r, ?_, did_reader hp hs hr⟩
    rw [next_reader hp, hs]
    rfl

/-! ## Losses -/

/-- A later batch of the partition, under the same id and epoch. -/
def Later (b b' : ProducerBatch) : Prop :=
  b'.batchTopicPartition = b.batchTopicPartition ∧ b'.batchProducerId = b.batchProducerId ∧
    b'.batchProducerEpoch = b.batchProducerEpoch ∧ b.batchBaseSequence < b'.batchBaseSequence

instance (b b' : ProducerBatch) : Decidable (Later b b') := inferInstanceAs (Decidable (_ ∧ _ ∧ _ ∧ _))

/-- The partition's lost sequence is that of the batch, or an earlier one. -/
def Recorded (s : SenderState) (b : ProducerBatch) : Prop :=
  ∃ ls, s.senderLostSequences b.batchTopicPartition = some ls ∧ ls.lsProducerId = b.batchProducerId ∧
    ls.lsEpoch = b.batchProducerEpoch ∧ ls.lsSequence ≤ b.batchBaseSequence

/-- A batch with a sequence number whose callbacks got an error. -/
def Failed (s : SenderState) (b : ProducerBatch) : Prop :=
  0 ≤ b.batchBaseSequence ∧ ∃ why, (b, .error why) ∈ s.completed

/-- Every loss is recorded, and the producer was told. -/
def LossesKnown (s : SenderState) : Prop := ∀ b, Failed s b → Recorded s b ∧ b ∈ s.told

/-- Between the two states the batch is put in the retry queue. -/
def Queues (s s' : SenderState) (b : ProducerBatch) : Prop :=
  ∃ q, s'.senderRetryQueue = s.senderRetryQueue ++ q ∧ b ∈ q.map RetryEntry.reBatch

/-- The step queues no batch that is later than one that failed. -/
def StopsSuccessors (cfg : Config) (s : SenderState) (e : Event) : Prop :=
  ∀ s', step cfg s e = some s' → ∀ b', Queues s s' b' → ∀ b, Failed s b → ¬ Later b b'

/-- The batch that a job puts in the retry queue, after it asked for losses. -/
def Job.requeued : Job → Option ProducerBatch
  | .enqueueRetry _ batch => some batch
  | _ => none

/-- What the code does not look after: the losses of a delivery timeout, a record of
    another id or epoch, a loss while a later batch has passed the check, and fresh
    batches that are queued behind others. -/
def GuardedJob (cfg : Config) (env : Env) (s : SenderState) : Job → Prop
  | .round _ batches =>
    ∀ b ∈ batches, isBatchTimedOut env.now cfg.senderDeliveryTimeoutMs b = true → b.batchBaseSequence < 0
  | .failBatch _ batch => 0 ≤ batch.batchBaseSequence →
    (∀ ls ∈ s.senderLostSequences batch.batchTopicPartition,
      ls.lsProducerId = batch.batchProducerId ∧ ls.lsEpoch = batch.batchProducerEpoch) ∧
      ∀ j ∈ s.jobs, ∀ b' ∈ j.requeued, ¬ Later batch b'
  | .hold _ fresh => ∀ b ∈ fresh, isBehind s.senderRetryQueue b = true → sequenceLostBefore s b = false
  | _ => True

def Guarded (cfg : Config) (s : SenderState) : Event → Prop
  | .ready _ => True
  | .run thread env => ∀ j ∈ s.next (.run thread env), GuardedJob cfg env s j

/-- The losses are known, and what will be queued was not behind one. -/
structure Stopped (s : SenderState) : Prop where
  known : LossesKnown s
  asked : ∀ j ∈ s.jobs, ∀ b ∈ j.requeued, sequenceLostBefore s b = false

theorem sequenceLostBefore_congr (h : t.senderLostSequences = s.senderLostSequences) (b : ProducerBatch) :
    sequenceLostBefore t b = sequenceLostBefore s b := by
  unfold sequenceLostBefore
  rw [h]

theorem recorded_congr (h : t.senderLostSequences = s.senderLostSequences) (b : ProducerBatch) :
    Recorded t b ↔ Recorded s b := by
  unfold Recorded
  rw [h]

/-- What is recorded for a batch stops the later ones. -/
theorem Recorded.stops (h : Recorded s b) (h0 : 0 ≤ b.batchBaseSequence) (hl : Later b b') :
    sequenceLostBefore s b' = true := by
  obtain ⟨ls, hls, hpid, hepoch, hseq⟩ := h
  obtain ⟨htp, hpid', hepoch', hlt⟩ := hl
  unfold sequenceLostBefore
  rw [if_neg (Int32.not_lt.2 (Int32.le_of_lt (Int32.lt_of_le_of_lt h0 hlt))), htp, hls]
  simp only [decide_eq_true_iff]
  exact ⟨hpid.trans hpid'.symm, hepoch.trans hepoch'.symm, Int32.lt_of_le_of_lt hseq hlt⟩

/-- More callbacks ran, none of them for a loss. -/
theorem LossesKnown.append (h : LossesKnown s) {xs : List (ProducerBatch × Except Failure Int)}
    (hlost : t.senderLostSequences = s.senderLostSequences) (htold : t.told = s.told)
    (hcompleted : t.completed = s.completed ++ xs) (hxs : ∀ b why, (b, .error why) ∈ xs → b.batchBaseSequence < 0) :
    LossesKnown t := by
  rintro b ⟨h0, why, hb⟩
  rw [recorded_congr hlost, htold]
  rw [hcompleted] at hb
  rcases List.mem_append.1 hb with hb | hb
  · exact h b ⟨h0, why, hb⟩
  · exact absurd h0 (Int32.not_le.2 (hxs b why hb))

theorem LossesKnown.same (h : LossesKnown s) (hlost : t.senderLostSequences = s.senderLostSequences)
    (htold : t.told = s.told) (hcompleted : t.completed = s.completed) : LossesKnown t :=
  h.append hlost htold (hcompleted.trans (List.append_nil _).symm) fun b why hb => by cases hb

/-- What is kept is the new loss or the old one. -/
theorem keepEarliest_cases (new : LostSequence) (old : Option LostSequence) :
    keepEarliest new old = new ∨ old = some (keepEarliest new old) := by
  cases old with
  | none => exact Or.inl rfl
  | some ls =>
    simp only [keepEarliest]
    split_ifs
    · exact Or.inr rfl
    · exact Or.inl rfl
    · exact Or.inl rfl

theorem keepEarliest_le_new (new : LostSequence) (old : Option LostSequence) :
    (keepEarliest new old).lsProducerId = new.lsProducerId ∧ (keepEarliest new old).lsEpoch = new.lsEpoch ∧
      (keepEarliest new old).lsSequence ≤ new.lsSequence := by
  cases old with
  | none => exact ⟨rfl, rfl, Int32.le_refl _⟩
  | some ls =>
    simp only [keepEarliest]
    split_ifs with hsame hle
    · exact ⟨hsame.1, hsame.2, hle⟩
    · exact ⟨rfl, rfl, Int32.le_refl _⟩
    · exact ⟨rfl, rfl, Int32.le_refl _⟩

/-- Under one id and epoch the earlier loss is kept. -/
theorem keepEarliest_le_old {new old : LostSequence} (hpid : old.lsProducerId = new.lsProducerId)
    (hepoch : old.lsEpoch = new.lsEpoch) : (keepEarliest new (some old)).lsSequence ≤ old.lsSequence := by
  simp only [keepEarliest]
  rw [if_pos ⟨hpid, hepoch⟩]
  split_ifs with hle
  · exact Int32.le_refl _
  · exact Int32.le_of_lt (Int32.not_le.1 hle)

theorem recordLoss_lost (s : SenderState) (b : ProducerBatch) (tp : TopicPartition) :
    (recordLoss s b).senderLostSequences tp = if tp = b.batchTopicPartition then
      some (keepEarliest ⟨b.batchProducerId, b.batchProducerEpoch, b.batchBaseSequence⟩
        (s.senderLostSequences b.batchTopicPartition)) else s.senderLostSequences tp := rfl

theorem recordLoss_recorded (s : SenderState) (b : ProducerBatch) : Recorded (recordLoss s b) b := by
  obtain ⟨hpid, hepoch, hseq⟩ := keepEarliest_le_new ⟨b.batchProducerId, b.batchProducerEpoch, b.batchBaseSequence⟩
    (s.senderLostSequences b.batchTopicPartition)
  refine ⟨_, ?_, hpid, hepoch, hseq⟩
  rw [recordLoss_lost, if_pos rfl]

/-- A loss that is recorded stays so if the next one is of the same id and epoch. -/
theorem Recorded.recordLoss (h : Recorded s b') (hsame : ∀ ls ∈ s.senderLostSequences b.batchTopicPartition,
      ls.lsProducerId = b.batchProducerId ∧ ls.lsEpoch = b.batchProducerEpoch) :
    Recorded (recordLoss s b) b' := by
  obtain ⟨ls, hls, hpid, hepoch, hseq⟩ := h
  by_cases htp : b'.batchTopicPartition = b.batchTopicPartition
  · rw [htp] at hls
    obtain ⟨hp, he⟩ := hsame ls hls
    obtain ⟨hpid', hepoch', -⟩ := keepEarliest_le_new
      ⟨b.batchProducerId, b.batchProducerEpoch, b.batchBaseSequence⟩ (some ls)
    refine ⟨_, ?_, hpid'.trans (hp.symm.trans hpid), hepoch'.trans (he.symm.trans hepoch),
      Int32.le_trans (keepEarliest_le_old hp he) hseq⟩
    rw [recordLoss_lost, if_pos htp, hls]
  · refine ⟨ls, ?_, hpid, hepoch, hseq⟩
    rw [recordLoss_lost, if_neg htp]
    exact hls

/-- A new loss is behind no batch that it does not precede. -/
theorem recordLoss_sequenceLostBefore (h : sequenceLostBefore s b' = false) (hl : ¬ Later b b') :
    sequenceLostBefore (recordLoss s b) b' = false := by
  by_cases htp : b'.batchTopicPartition = b.batchTopicPartition
  · unfold sequenceLostBefore at h ⊢
    split
    · rfl
    · rename_i h0
      rw [if_neg h0] at h
      rw [recordLoss_lost, if_pos htp]
      rcases keepEarliest_cases ⟨b.batchProducerId, b.batchProducerEpoch, b.batchBaseSequence⟩
        (s.senderLostSequences b.batchTopicPartition) with hnew | hold
      · rw [hnew]
        rw [decide_eq_false_iff_not]
        rintro ⟨hpid, hepoch, hlt⟩
        exact hl ⟨htp, hpid.symm, hepoch.symm, hlt⟩
      · rw [htp, hold] at h
        exact h
  · unfold sequenceLostBefore at h ⊢
    rw [recordLoss_lost, if_neg htp]
    exact h

/-! ## One step -/

/-- The batches that a round finds timed out. -/
def timedOut (cfg : Config) (env : Env) : Job → List ProducerBatch
  | .round _ batches => batches.filter (isBatchTimedOut env.now cfg.senderDeliveryTimeoutMs)
  | _ => []

/-- What a job of the sender does to the losses and the callbacks. -/
structure Books (cfg : Config) (env : Env) (s : SenderState) (j : Job) (r : SenderState × List Job) : Prop where
  lost : r.1.senderLostSequences = s.senderLostSequences
  told : r.1.told = s.told
  completed : r.1.completed = s.completed ++ (timedOut cfg env j).map fun b => (b, .error .deliveryTimeout)
  requeued : ∀ j' ∈ r.2, j'.requeued = none
  queue : ∀ q, r.1.senderRetryQueue = s.senderRetryQueue ++ q → q = [] ∨ ∃ due fresh, j = .hold due fresh ∧
    q.map RetryEntry.reBatch = fresh.filter (isBehind s.senderRetryQueue)

theorem runSender_books (h : runSender cfg env s j = some r) : Books cfg env s j r := by
  have hnone : s.completed = s.completed ++
    ([] : List ProducerBatch).map fun b => (b, (.error .deliveryTimeout : Except Failure Int)) :=
      (List.append_nil _).symm
  have hsame : ∀ q, s.senderRetryQueue = s.senderRetryQueue ++ q → q = [] ∨ ∃ due fresh, j = .hold due fresh ∧
      q.map RetryEntry.reBatch = fresh.filter (isBehind s.senderRetryQueue) :=
    fun q hq => Or.inl (List.self_eq_append_right.1 hq)
  cases j with
  | loop =>
    cases h
    exact ⟨rfl, rfl, hnone, List.forall_mem_cons.2 ⟨rfl, List.forall_mem_singleton.2 rfl⟩, hsame⟩
  | poll =>
    cases h
    exact ⟨rfl, rfl, hnone, List.forall_mem_singleton.2 rfl, hsame⟩
  | takeDue hasReady =>
    cases h
    refine ⟨rfl, rfl, hnone, fun j' hj' => ?_, fun q hq => Or.inl ?_⟩
    · split at hj'
      · rw [List.mem_singleton.1 hj']
        rfl
      · cases hj'
    · have hlen : (s.senderRetryQueue.filter fun e => ¬ isDue env.now s.senderRetryQueue e).length =
          (s.senderRetryQueue ++ q).length := congrArg List.length hq
      rw [List.length_append] at hlen
      have hle := List.length_filter_le (fun e => ¬ isDue env.now s.senderRetryQueue e) s.senderRetryQueue
      exact List.length_eq_zero_iff.1 (by omega)
  | drain hasReady due =>
    simp only [runSender] at h
    split at h
    · cases h
      exact ⟨rfl, rfl, hnone, List.forall_mem_singleton.2 rfl, hsame⟩
    · cases h
      exact ⟨rfl, rfl, hnone, List.forall_mem_singleton.2 rfl, hsame⟩
  | hold due fresh =>
    cases h
    refine ⟨rfl, rfl, hnone, List.forall_mem_singleton.2 rfl, fun q hq => Or.inr ⟨due, fresh, rfl, ?_⟩⟩
    rw [← List.append_cancel_left hq, List.map_map]
    exact List.map_id _
  | group todo known unknown =>
    cases todo with
    | nil =>
      cases h
      refine ⟨rfl, rfl, hnone, fun j' hj' => ?_, hsame⟩
      rcases List.mem_append.1 hj' with hj' | hj'
      · obtain ⟨b, -, rfl⟩ := List.mem_map.1 hj'
        rfl
      · obtain ⟨e, -, rfl⟩ := List.mem_map.1 hj'
        rfl
    | cons b todo =>
      simp only [runSender] at h
      split at h
      · cases h
        exact ⟨rfl, rfl, hnone, List.forall_mem_singleton.2 rfl, hsame⟩
      · cases h
        exact ⟨rfl, rfl, hnone, List.forall_mem_singleton.2 rfl, hsame⟩
  | pool broker batches =>
    have hrounds : ∀ ids, ∀ j' ∈ poolRounds cfg ids batches, j'.requeued = none := by
      intro ids j' hj'
      obtain ⟨e, -, he⟩ := List.mem_flatMap.1 hj'
      obtain ⟨x, -, rfl⟩ := List.mem_map.1 he
      rfl
    simp only [runSender] at h
    split at h
    · cases h
      exact ⟨rfl, rfl, hnone, hrounds _, hsame⟩
    · split at h
      · cases h
        exact ⟨rfl, rfl, hnone, hrounds _, hsame⟩
      · cases h
        refine ⟨rfl, rfl, hnone, fun j' hj' => ?_, hsame⟩
        obtain ⟨b, -, rfl⟩ := List.mem_map.1 hj'
        rfl
  | round pipe batches =>
    cases h
    refine ⟨rfl, rfl, rfl, fun j' hj' => ?_, hsame⟩
    split at hj'
    · cases hj'
    · rw [List.mem_singleton.1 hj']
      rfl
  | count pipe valid =>
    cases h
    exact ⟨rfl, rfl, hnone, List.forall_mem_singleton.2 rfl, hsame⟩
  | write pipe valid =>
    simp only [runSender] at h
    split at h
    · split at h
      · cases h
        exact ⟨rfl, rfl, hnone, List.forall_mem_nil _, hsame⟩
      · cases h
    · cases h
  | notBusy =>
    cases h
    exact ⟨rfl, rfl, hnone, List.forall_mem_singleton.2 rfl, hsame⟩
  | _ => cases h

theorem runPipe_requeued (h : runPipe env s p j = some r) : ∀ j' ∈ r.2, j'.requeued = none := by
  have hmap : ∀ (f : ProducerBatch → Job) (bs : List ProducerBatch) (js : List Job),
      (∀ b, (f b).requeued = none) → (∀ j' ∈ js, j'.requeued = none) → ∀ j' ∈ bs.map f ++ js, j'.requeued = none := by
    intro f bs js hf hjs j' hj'
    rcases List.mem_append.1 hj' with hj' | hj'
    · obtain ⟨b, -, rfl⟩ := List.mem_map.1 hj'
      exact hf b
    · exact hjs j' hj'
  cases j with
  | writerRead pipe =>
    simp only [runPipe] at h
    split at h
    · cases h
    · cases h
      simp only
      split
      · exact List.forall_mem_cons.2 ⟨rfl, List.forall_mem_singleton.2 rfl⟩
      · exact hmap _ _ _ (fun b => rfl) (List.forall_mem_cons.2 ⟨rfl, List.forall_mem_singleton.2 rfl⟩)
  | handOff pipe batches =>
    cases h
    exact List.forall_mem_nil _
  | receive pipe =>
    simp only [runPipe] at h
    split at h
    · cases h
      exact hmap _ _ _ (fun b => rfl) (List.forall_mem_cons.2 ⟨rfl, List.forall_mem_singleton.2 rfl⟩)
    · split at h
      · cases h
      · cases h
        exact hmap _ _ _ (fun b => rfl) (List.forall_mem_cons.2 ⟨rfl, List.forall_mem_singleton.2 rfl⟩)
    · split at h
      · cases h
      · cases h
        intro j' hj'
        rcases List.mem_append.1 hj' with hj' | hj'
        · obtain ⟨x, -, hx⟩ := List.mem_flatMap.1 hj'
          obtain ⟨b, -, rfl⟩ := List.mem_map.1 hx
          unfold outcome
          split
          · rfl
          · split
            · rfl
            · rfl
        · rcases List.mem_cons.1 hj' with rfl | hj'
          · rfl
          · rw [List.mem_singleton.1 hj']
            rfl
  | resetCount pipe =>
    cases h
    exact List.forall_mem_nil _
  | forget pipe =>
    cases h
    exact List.forall_mem_nil _
  | countDown pipe =>
    cases h
    exact List.forall_mem_nil _
  | _ => cases h

/-- A job on a batch, with its checks. -/
theorem runBatch_known (h : Stopped s) (hg : GuardedJob cfg env s j) (hr : runBatch cfg env s j = some r) :
    LossesKnown r.1 ∧ (∀ j' ∈ s.jobs, ∀ b ∈ j'.requeued, sequenceLostBefore r.1 b = false) ∧
      ∀ j' ∈ r.2, ∀ b ∈ j'.requeued, sequenceLostBefore r.1 b = false := by
  cases j with
  | retryOrFail why b =>
    simp only [runBatch] at hr
    split at hr
    · cases hr
      exact ⟨h.known, h.asked, List.forall_mem_singleton.2 fun b hb => by cases hb⟩
    · rename_i hnot
      cases hr
      refine ⟨h.known, h.asked, List.forall_mem_singleton.2 fun b' hb' => ?_⟩
      cases hb'
      have hlost : ¬ sequenceLostBefore s b = true := fun hl => hnot (Or.inl hl)
      exact Bool.eq_false_iff.2 hlost
  | enqueueRetry due b =>
    cases hr
    exact ⟨h.known, h.asked, List.forall_mem_nil _⟩
  | failBatch why b =>
    cases hr
    unfold failBatch
    split
    · rename_i h0
      obtain ⟨hsame, hpassed⟩ := hg h0
      refine ⟨?_, fun j' hj' b' hb' => ?_, List.forall_mem_nil _⟩
      · rintro b' ⟨h0', why', hb'⟩
        rcases List.mem_append.1 hb' with hb' | hb'
        · obtain ⟨hrec, htold⟩ := h.known b' ⟨h0', why', hb'⟩
          exact ⟨hrec.recordLoss hsame, List.mem_append_left _ htold⟩
        · cases List.mem_singleton.1 hb'
          exact ⟨recordLoss_recorded s b, List.mem_append_right _ List.mem_cons_self⟩
      · exact recordLoss_sequenceLostBefore (h.asked j' hj' b' hb') (hpassed j' hj' b' hb')
    · rename_i h0
      refine ⟨h.known.append rfl rfl rfl fun b' why' hb' => ?_, h.asked, List.forall_mem_nil _⟩
      cases List.mem_singleton.1 hb'
      exact Int32.not_le.1 h0
  | succeed off b =>
    cases hr
    refine ⟨h.known.append rfl rfl rfl fun b' why' hb' => ?_, h.asked, List.forall_mem_nil _⟩
    cases List.mem_singleton.1 hb'
  | _ => cases hr

/-- **A step keeps the losses known**, if it is guarded. -/
theorem step_known {e : Event} (h : Stopped s) (hg : Guarded cfg s e) (hstep : step cfg s e = some s') : Stopped s' := by
  cases e with
  | ready b =>
    cases hstep
    exact ⟨h.known, h.asked⟩
  | run thread env =>
    obtain ⟨j, r, hnext, hdid⟩ := did_of_steps (steps_of_step hstep)
    have hguard := hg j hnext
    have hjobs : (∀ j' ∈ s.jobs, ∀ b ∈ j'.requeued, sequenceLostBefore r.1 b = false) →
        (∀ j' ∈ r.2, ∀ b ∈ j'.requeued, sequenceLostBefore r.1 b = false) →
        ∀ j' ∈ s'.jobs, ∀ b ∈ j'.requeued, sequenceLostBefore s' b = false := by
      intro hold hnew j' hj' b hb
      rw [sequenceLostBefore_congr hdid.lost]
      rcases hdid.jobs j' hj' with hj' | hj' | ⟨i, rfl | rfl⟩
      · exact hold j' hj' b hb
      · exact hnew j' hj' b hb
      · cases hb
      · cases hb
    rcases hdid.ran with hr | hr | ⟨p, -, hr⟩
    · obtain ⟨hknown, hold, hnew⟩ := runBatch_known h hguard hr
      refine ⟨?_, hjobs hold hnew⟩
      exact hknown.same hdid.lost hdid.told hdid.completed
    · have hbooks := runSender_books hr
      refine ⟨?_, hjobs (fun j' hj' b hb => ?_) fun j' hj' b hb => ?_⟩
      · refine h.known.append (hdid.lost.trans hbooks.lost) (hdid.told.trans hbooks.told)
          (hdid.completed.trans hbooks.completed) fun b why hb => ?_
        obtain ⟨b', hb', he⟩ := List.mem_map.1 hb
        cases he
        cases j with
        | round pipe batches =>
          obtain ⟨hin, htimed⟩ := List.mem_filter.1 hb'
          exact hguard _ hin htimed
        | _ => cases hb'
      · rw [sequenceLostBefore_congr hbooks.lost]
        exact h.asked j' hj' b hb
      · rw [hbooks.requeued j' hj'] at hb
        cases hb
    · have hun := runPipe_untouched hr
      refine ⟨?_, hjobs (fun j' hj' b hb => ?_) fun j' hj' b hb => ?_⟩
      · exact h.known.same (hdid.lost.trans hun.lost) (hdid.told.trans hun.told) (hdid.completed.trans hun.completed)
      · rw [sequenceLostBefore_congr hun.lost]
        exact h.asked j' hj' b hb
      · rw [runPipe_requeued hr j' hj'] at hb
        cases hb

theorem queues_self (hq : s'.senderRetryQueue = s.senderRetryQueue) : ¬ Queues s s' b := by
  rintro ⟨q, he, hb⟩
  rw [hq] at he
  rw [List.self_eq_append_right.1 he] at hb
  cases hb

theorem failBatch_queue (s : SenderState) (why : Failure) (b : ProducerBatch) :
    (failBatch s why b).senderRetryQueue = s.senderRetryQueue := by
  unfold failBatch
  split
  · rfl
  · rfl

/-- What puts a batch in the retry queue. -/
theorem queues_cases (hdid : Did cfg env s s' j r) (hq : Queues s s' b) :
    j.requeued = some b ∨ ∃ due fresh, j = .hold due fresh ∧ b ∈ fresh ∧ isBehind s.senderRetryQueue b = true := by
  rcases hdid.ran with hr | hr | ⟨p, -, hr⟩
  · cases j with
    | retryOrFail why x =>
      simp only [runBatch] at hr
      split at hr
      · cases hr
        exact absurd hq (queues_self hdid.queue)
      · cases hr
        exact absurd hq (queues_self hdid.queue)
    | enqueueRetry due x =>
      cases hr
      obtain ⟨q, he, hb⟩ := hq
      have hq := List.append_cancel_left (he.symm.trans hdid.queue)
      rw [hq] at hb
      rw [List.mem_singleton.1 hb]
      exact Or.inl rfl
    | failBatch why x =>
      cases hr
      exact absurd hq (queues_self (hdid.queue.trans (failBatch_queue s why x)))
    | succeed off x =>
      cases hr
      exact absurd hq (queues_self hdid.queue)
    | _ => cases hr
  · obtain ⟨q, he, hb⟩ := hq
    rw [hdid.queue] at he
    rcases (runSender_books hr).queue q he with rfl | ⟨due, fresh, rfl, hmap⟩
    · cases hb
    · rw [hmap] at hb
      obtain ⟨hin, hbehind⟩ := List.mem_filter.1 hb
      exact Or.inr ⟨due, fresh, rfl, hin, hbehind⟩
  · exact absurd hq (queues_self (hdid.queue.trans (runPipe_untouched hr).queue))

theorem stopsSuccessors (h : Stopped s) {e : Event} (hg : Guarded cfg s e) : StopsSuccessors cfg s e := by
  intro s' hstep b' hq b hb hl
  have hlost := (h.known b hb).1.stops hb.1 hl
  cases e with
  | ready b =>
    cases hstep
    exact queues_self rfl hq
  | run thread env =>
    obtain ⟨j, r, hnext, hdid⟩ := did_of_steps (steps_of_step hstep)
    rcases queues_cases hdid hq with hj | ⟨due, fresh, rfl, hin, hbehind⟩
    · rw [h.asked j hdid.job b' hj] at hlost
      cases hlost
    · rw [hg _ hnext b' hin hbehind] at hlost
      cases hlost

/-! ## Runs -/

theorem init_stopped : Stopped SenderState.init := by
  refine ⟨?_, List.forall_mem_singleton.2 fun b hb => by cases hb⟩
  rintro b ⟨-, why, hb⟩
  cases hb

/-- **A lost sequence stops its successors**, in every run whose steps are guarded. -/
theorem lost_stops {es : List Event} (hrun : run (step cfg) SenderState.init es = some s)
    (hg : Along (step cfg) (Guarded cfg) SenderState.init es) :
    LossesKnown s ∧ Along (step cfg) (StopsSuccessors cfg) SenderState.init es := by
  have hstep : ∀ s e s', Stopped s → Guarded cfg s e → step cfg s e = some s' → Stopped s' :=
    fun _ _ _ h hg hs => step_known h hg hs
  exact ⟨(run_invariant hstep init_stopped hg hrun).known,
    along_invariant hstep (fun s e h hg => stopsSuccessors h hg) init_stopped hg⟩

instance : ∀ j : Job, Decidable (GuardedJob cfg env s j)
  | .round _ batches => inferInstanceAs (Decidable (∀ b ∈ batches, _ → _))
  | .failBatch _ batch => inferInstanceAs (Decidable (0 ≤ batch.batchBaseSequence → _ ∧ _))
  | .hold _ fresh => inferInstanceAs (Decidable (∀ b ∈ fresh, _ → _))
  | .loop | .poll | .takeDue _ | .drain .. | .group .. | .pool .. | .count .. | .write .. | .notBusy
  | .writerRead _ | .handOff .. | .receive _ | .resetCount _ | .forget _ | .countDown _
  | .retryOrFail .. | .enqueueRetry .. | .succeed .. => isTrue trivial

instance : ∀ e : Event, Decidable (Guarded cfg s e)
  | .ready _ => isTrue trivial
  | .run thread env => inferInstanceAs (Decidable (∀ j ∈ s.next (.run thread env), _))

def idempotentBatch : ProducerBatch :=
  { aBatch with batchProducerId := 9, batchProducerEpoch := 0, batchBaseSequence := 0 }

/-- The broker refuses the batch for good. -/
def refused : List Event :=
  .ready idempotentBatch :: List.replicate 12 (.run .sender broker) ++ List.replicate 2 (.run (.writer 0) broker) ++
    (.run (.reader 0) { broker with reply := .produce [⟨⟨"t", 0⟩, 87, -1⟩] } ::
      List.replicate 2 (.run (.reader 0) broker))

theorem lost_stops_refused : LossesKnown (after oneConnection refused) ∧
    Along (step oneConnection) (StopsSuccessors oneConnection) SenderState.init refused :=
  lost_stops (run_after (by decide)) (by decide)

/-- The batch is past its delivery timeout when its round is sent. -/
def overdue : List Event :=
  .ready idempotentBatch :: List.replicate 9 (.run .sender { broker with now := 120001 })

/-- **A delivery timeout is not recorded.** -/
theorem timedOut_lost : ¬ ∀ (cfg : Config) (es : List Event) (s : SenderState),
    run (step cfg) SenderState.init es = some s →
      LossesKnown s ∧ Along (step cfg) (StopsSuccessors cfg) SenderState.init es := by
  intro hall
  have hfailed : Failed (after oneConnection overdue) idempotentBatch :=
    ⟨by decide, .deliveryTimeout, by decide⟩
  obtain ⟨⟨ls, hls, -⟩, -⟩ := (hall oneConnection overdue _ (run_after (by decide))).1 _ hfailed
  have hnone : (after oneConnection overdue).senderLostSequences idempotentBatch.batchTopicPartition = none := by
    decide
  rw [hnone] at hls
  cases hls

end Wireform.Kafka.Sender

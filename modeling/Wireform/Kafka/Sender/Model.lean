/-
  The background sender of the producer (`Kafka.Client.Internal.ProducerSender`).

  The sender loop takes batches off the accumulator and the retry queue and hands
  rounds of them to the pipes of their brokers; each pipe has a writer and a reader
  thread, with a channel of outgoing rounds and one of rounds in flight.

  A thread is a list of jobs.  A job is what the thread does in one go: one STM
  transaction, one access to a reference or a channel, one call of a batch's
  callbacks.  It returns the jobs that come next.  What the clock, the metadata, the
  network and the brokers say comes with the event.
-/
import Mathlib.Algebra.Ring.Int.Defs
import Wireform.Grouping
import Wireform.Transition
import Wireform.Kafka.ProducerBatch

namespace Wireform.Kafka.Sender

/-- A broker, by its address. -/
abbrev Broker := Nat

abbrev PipeId := Nat

/-- The knobs of the sender.  `nextRetryBackoffMs` is computed in floating point, and
    `hash` is the hash of the hash maps. -/
structure Config where
  retryMaxAttempts : Nat
  nextRetryBackoffMs : Nat → Nat
  senderDeliveryTimeoutMs : Int
  senderMaxInFlight : Nat
  senderConnsPerBroker : Nat
  hash : TopicPartition → Nat

structure RetryEntry where
  reDueMs : Int
  reBatch : ProducerBatch
  deriving DecidableEq, Repr

structure LostSequence where
  lsProducerId : Int64
  lsEpoch : Int16
  lsSequence : Int32
  deriving DecidableEq, Repr

/-- Why the records of a batch failed. -/
inductive Failure where
  | deliveryTimeout
  | openPipe
  | unknownLeader
  | wireWrite
  | wireRead
  | decode
  | correlation
  | parse
  | kafka (errorCode : Int16)
  deriving DecidableEq, Repr

/-- A partition's part of a produce response. -/
structure PartitionResponse where
  key : TopicPartition
  errorCode : Int16
  baseOffset : Int
  deriving DecidableEq, Repr

/-- What the reader of a pipe gets. -/
inductive Reply where
  | readFailed
  | undecodable (why : Failure)
  | produce (parts : List PartitionResponse)
  deriving DecidableEq, Repr

inductive Job where
  /-- The sender loop. -/
  | loop
  | poll
  | takeDue (hasReady : Bool)
  | drain (hasReady : Bool) (due : List ProducerBatch)
  | hold (due fresh : List ProducerBatch)
  | group (rest : List ProducerBatch) (known : List (Broker × ProducerBatch)) (unknown : List ProducerBatch)
  | pool (broker : Broker) (batches : List ProducerBatch)
  | round (pipe : PipeId) (batches : List ProducerBatch)
  | count (pipe : PipeId) (valid : List ProducerBatch)
  | write (pipe : PipeId) (valid : List ProducerBatch)
  | notBusy
  /-- The writer of a pipe. -/
  | writerRead (pipe : PipeId)
  | handOff (pipe : PipeId) (batches : List ProducerBatch)
  /-- Its reader. -/
  | receive (pipe : PipeId)
  | resetCount (pipe : PipeId)
  | forget (pipe : PipeId)
  | countDown (pipe : PipeId)
  /-- What becomes of a batch. -/
  | retryOrFail (why : Failure) (batch : ProducerBatch)
  | enqueueRetry (dueMs : Int) (batch : ProducerBatch)
  | failBatch (why : Failure) (batch : ProducerBatch)
  | succeed (baseOffset : Int) (batch : ProducerBatch)
  deriving DecidableEq, Repr

/-- A connection to a broker, with its two channels and its two threads. -/
structure Pipe where
  bpAddr : Broker
  outbox : List (List ProducerBatch)
  inFlight : List (List ProducerBatch)
  bpInFlightCount : Int
  writer : List Job
  reader : List Job
  deriving DecidableEq, Repr

structure SenderState where
  /-- The batches that are ready. -/
  accumulator : List ProducerBatch
  senderRetryQueue : List RetryEntry
  senderLostSequences : TopicPartition → Option LostSequence
  senderBusy : Bool
  senderBrokerPipes : AssocMap Broker (List PipeId)
  pipes : List Pipe
  sender : List Job
  /-- The batches whose callbacks have run, and what they were given. -/
  completed : List (ProducerBatch × Except Failure Int)
  /-- The batches `senderOnSequenceLost` was called for. -/
  told : List ProducerBatch

def SenderState.init : SenderState where
  accumulator := []
  senderRetryQueue := []
  senderLostSequences := fun _ => none
  senderBusy := false
  senderBrokerPipes := []
  pipes := []
  sender := [.loop]
  completed := []
  told := []

/-- What a step gets from outside. -/
structure Env where
  now : Int
  leader : Option Broker
  connects : Bool
  writes : Bool
  reply : Reply

/-! ## Retries -/

inductive ErrorClass where
  | retriable
  | abortable
  | fatal
  | noError
  deriving DecidableEq, Repr

def abortableCodes : List Int16 := [10, 18, 47, 48, 49, 50, 51, 52]

def fatalCodes : List Int16 :=
  [4, 8, 17, 29, 30, 31, 38, 39, 40, 43, 44, 45, 46, 53, 54, 73, 76, 80, 81, 82, 83, 87, 90]

/-- A code that is not listed is retriable. -/
def classify (code : Int16) : ErrorClass :=
  if code = 0 then .noError
  else if code ∈ abortableCodes then .abortable
  else if code ∈ fatalCodes then .fatal
  else .retriable

def isBatchTimedOut (currentTime deliveryTimeoutMs : Int) (batch : ProducerBatch) : Bool :=
  currentTime - batch.batchCreateTime > deliveryTimeoutMs

def shouldRetry (cfg : Config) (batch : ProducerBatch) : Bool := batch.batchAttempts < cfg.retryMaxAttempts

def bumpBatchAttempts (batch : ProducerBatch) : ProducerBatch :=
  { batch with batchAttempts := batch.batchAttempts + 1 }

def sequenceLostBefore (s : SenderState) (batch : ProducerBatch) : Bool :=
  if batch.batchBaseSequence < 0 then false
  else
    match s.senderLostSequences batch.batchTopicPartition with
    | some ls => ls.lsProducerId = batch.batchProducerId ∧ ls.lsEpoch = batch.batchProducerEpoch ∧
        ls.lsSequence < batch.batchBaseSequence
    | none => false

/-- Of two losses under one id and epoch the earlier one is kept, else the new one. -/
def keepEarliest (new : LostSequence) : Option LostSequence → LostSequence
  | some old =>
    if old.lsProducerId = new.lsProducerId ∧ old.lsEpoch = new.lsEpoch then
      if old.lsSequence ≤ new.lsSequence then old else new
    else new
  | none => new

/-- An idempotent batch that fails: the loss is recorded and the producer is told. -/
def recordLoss (s : SenderState) (batch : ProducerBatch) : SenderState :=
  let tp := batch.batchTopicPartition
  let ls : LostSequence := ⟨batch.batchProducerId, batch.batchProducerEpoch, batch.batchBaseSequence⟩
  { s with
    senderLostSequences := fun x =>
      if x = tp then some (keepEarliest ls (s.senderLostSequences tp)) else s.senderLostSequences x
    told := s.told ++ [batch] }

/-- The callbacks of some batches run. -/
def SenderState.complete (s : SenderState) (result : Except Failure Int) (batches : List ProducerBatch) : SenderState :=
  { s with completed := s.completed ++ batches.map fun b => (b, result) }

def failBatch (s : SenderState) (why : Failure) (batch : ProducerBatch) : SenderState :=
  (if batch.batchBaseSequence ≥ 0 then recordLoss s batch else s).complete (.error why) [batch]

/-! ## The sender loop -/

/-- The time at which the last entry of a partition is due. -/
def lastDue (q : List RetryEntry) (tp : TopicPartition) : Option Int :=
  ((q.filter fun e => e.reBatch.batchTopicPartition = tp).map RetryEntry.reDueMs).max?

/-- All entries of the partition are due. -/
def isDue (now : Int) (q : List RetryEntry) (e : RetryEntry) : Bool :=
  (lastDue q e.reBatch.batchTopicPartition).getD 0 ≤ now

/-- A fresh batch of a partition with a retry waiting goes behind it. -/
def isBehind (q : List RetryEntry) (b : ProducerBatch) : Bool := (lastDue q b.batchTopicPartition).isSome

/-- The order of `retried`: by partition, then by sequence number. -/
def retriedLe (a b : ProducerBatch) : Prop :=
  (toLex (a.batchTopicPartition.key, a.batchBaseSequence.toInt) : (String ×ₗ Int) ×ₗ Int) ≤
    toLex (b.batchTopicPartition.key, b.batchBaseSequence.toInt)

instance : DecidableRel retriedLe := fun _ _ => inferInstanceAs (Decidable (_ ≤ _))

/-- What `sendBatches` is called with. -/
def toSend (due go : List ProducerBatch) : List ProducerBatch := due.insertionSort retriedLe ++ go

/-- The k-th round has the k-th batch of each partition. -/
def roundsPerPartition (bs : List ProducerBatch) : List (List ProducerBatch) :=
  rounds (fun b => b.batchTopicPartition.key) bs

/-- The rounds of a broker's batches, with the pipe each goes to. -/
def poolRounds (cfg : Config) (pipes : List PipeId) (batches : List ProducerBatch) : List Job :=
  (groups (batches.map fun b => (cfg.hash b.batchTopicPartition % pipes.length, b))).flatMap fun e =>
    (roundsPerPartition e.2).map fun r => .round (pipes.getD e.1 0) r

def newPipe (broker : Broker) (id : PipeId) : Pipe where
  bpAddr := broker
  outbox := []
  inFlight := []
  bpInFlightCount := 0
  writer := [.writerRead id]
  reader := [.receive id]

/-- The pipes of a broker are opened. -/
def openPool (cfg : Config) (s : SenderState) (broker : Broker) : List PipeId × SenderState :=
  let ids := (List.range (max 1 cfg.senderConnsPerBroker)).map (s.pipes.length + ·)
  (ids, { s with
    senderBrokerPipes := AssocMap.insert broker ids s.senderBrokerPipes
    pipes := s.pipes ++ ids.map (newPipe broker) })

/-- What becomes of a batch that a response names. -/
def outcome (r : PartitionResponse) (batch : ProducerBatch) : Job :=
  if r.errorCode = 0 ∨ r.errorCode = 46 then .succeed r.baseOffset batch
  else if classify r.errorCode = .retriable ∨ (r.errorCode = 45 ∧ batch.batchBaseSequence ≥ 0) then
    .retryOrFail (.kafka r.errorCode) batch
  else .failBatch (.kafka r.errorCode) batch

def processProduceResponse (batches : List ProducerBatch) (parts : List PartitionResponse) : List Job :=
  parts.flatMap fun r =>
    ((batches.filter fun b => b.batchTopicPartition = r.key).reverse).map (outcome r)

def modifyPipe (s : SenderState) (p : PipeId) (f : Pipe → Pipe) : SenderState :=
  { s with pipes := s.pipes.modify p f }

/-- The broker's pool is dropped from the map. -/
def forgetPool (s : SenderState) (broker : Broker) : SenderState :=
  { s with senderBrokerPipes := s.senderBrokerPipes.filter fun e => e.1 ≠ broker }

/-! ## Jobs -/

/-- A job of the sender loop. -/
def runSender (cfg : Config) (env : Env) (s : SenderState) : Job → Option (SenderState × List Job)
  | .loop => some ({ s with senderBusy := true }, [.poll, .notBusy])
  | .poll => some (s, [.takeDue (s.accumulator ≠ [])])
  | .takeDue hasReady =>
    let q := s.senderRetryQueue
    let due := (q.filter (isDue env.now q)).map RetryEntry.reBatch
    some ({ s with senderRetryQueue := q.filter fun e => ¬ isDue env.now q e },
      if hasReady ∨ due ≠ [] then [.drain hasReady due] else [])
  | .drain hasReady due =>
    if hasReady then some ({ s with accumulator := [] }, [.hold due s.accumulator])
    else some (s, [.hold due []])
  | .hold due fresh =>
    let q := s.senderRetryQueue
    let queued := (fresh.filter (isBehind q)).map fun b => ⟨(lastDue q b.batchTopicPartition).getD 0, b⟩
    some ({ s with senderRetryQueue := q ++ queued },
      [.group (toSend due (fresh.filter fun b => ¬ isBehind q b)) [] []])
  | .group (b :: rest) known unknown =>
    match env.leader with
    | some broker => some (s, [.group rest (known ++ [(broker, b)]) unknown])
    | none => some (s, [.group rest known (unknown ++ [b])])
  | .group [] known unknown =>
    some (s, unknown.map (.retryOrFail .unknownLeader) ++ (groups known).map fun e => .pool e.1 e.2)
  | .pool broker batches =>
    match AssocMap.lookup broker s.senderBrokerPipes with
    | some ids => some (s, poolRounds cfg ids batches)
    | none =>
      if env.connects then
        let (ids, s') := openPool cfg s broker
        some (s', poolRounds cfg ids batches)
      else some (s, batches.map (.retryOrFail .openPipe))
  | .round pipe batches =>
    let timedOut := batches.filter (isBatchTimedOut env.now cfg.senderDeliveryTimeoutMs)
    let valid := batches.filter fun b => ¬ isBatchTimedOut env.now cfg.senderDeliveryTimeoutMs b
    some (s.complete (.error .deliveryTimeout) timedOut, if valid = [] then [] else [.count pipe valid])
  | .count pipe valid =>
    some (modifyPipe s pipe fun p => { p with bpInFlightCount := p.bpInFlightCount + 1 }, [.write pipe valid])
  | .write pipe valid =>
    match s.pipes[pipe]? with
    | some p =>
      if p.outbox.length < max 1 cfg.senderMaxInFlight then
        some (modifyPipe s pipe fun p => { p with outbox := p.outbox ++ [valid] }, [])
      else none
    | none => none
  | .notBusy => some ({ s with senderBusy := false }, [.loop])
  | _ => none

/-- A job of a pipe's writer or reader. -/
def runPipe (env : Env) (s : SenderState) (p : Pipe) : Job → Option (SenderState × List Job)
  | .writerRead pipe =>
    match p.outbox with
    | [] => none
    | out :: rest =>
      some (modifyPipe s pipe fun p => { p with outbox := rest },
        if env.writes then [.handOff pipe out, .writerRead pipe]
        else out.map (.retryOrFail .wireWrite) ++ [.countDown pipe, .writerRead pipe])
  | .handOff pipe batches =>
    some (modifyPipe s pipe fun p => { p with inFlight := p.inFlight ++ [batches] }, [])
  | .receive pipe =>
    match env.reply with
    | .readFailed =>
      some (modifyPipe s pipe fun p => { p with inFlight := [] },
        p.inFlight.flatten.map (.retryOrFail .wireRead) ++ [.resetCount pipe, .forget pipe])
    | .undecodable why =>
      match p.inFlight with
      | [] => none
      | pp :: rest =>
        some (modifyPipe s pipe fun p => { p with inFlight := rest },
          pp.map (.failBatch why) ++ [.countDown pipe, .receive pipe])
    | .produce parts =>
      match p.inFlight with
      | [] => none
      | pp :: rest =>
        some (modifyPipe s pipe fun p => { p with inFlight := rest },
          processProduceResponse pp parts ++ [.countDown pipe, .receive pipe])
  | .resetCount pipe => some (modifyPipe s pipe fun p => { p with bpInFlightCount := 0 }, [])
  | .forget _ => some (forgetPool s p.bpAddr, [])
  | .countDown pipe =>
    some (modifyPipe s pipe fun p => { p with bpInFlightCount := p.bpInFlightCount - 1 }, [])
  | _ => none

/-- What becomes of a batch, in whatever thread. -/
def runBatch (cfg : Config) (env : Env) (s : SenderState) : Job → Option (SenderState × List Job)
  | .retryOrFail why batch =>
    if sequenceLostBefore s batch ∨ isBatchTimedOut env.now cfg.senderDeliveryTimeoutMs batch ∨
        shouldRetry cfg batch = false then
      some (s, [.failBatch why batch])
    else some (s, [.enqueueRetry (env.now + cfg.nextRetryBackoffMs batch.batchAttempts) (bumpBatchAttempts batch)])
  | .enqueueRetry dueMs batch => some ({ s with senderRetryQueue := s.senderRetryQueue ++ [⟨dueMs, batch⟩] }, [])
  | .failBatch why batch => some (failBatch s why batch, [])
  | .succeed baseOffset batch => some (s.complete (.ok baseOffset) [batch], [])
  | _ => none

/-! ## Steps -/

inductive Thread where
  | sender
  | writer (pipe : PipeId)
  | reader (pipe : PipeId)
  deriving DecidableEq, Repr

inductive Event where
  /-- A batch becomes ready in the accumulator. -/
  | ready (batch : ProducerBatch)
  /-- A thread does its next job. -/
  | run (thread : Thread) (env : Env)

/-- The first job of a list, done by the sender or on a pipe. -/
def runJob (cfg : Config) (env : Env) (s : SenderState) (p : Option Pipe) (j : Job) :
    Option (SenderState × List Job) :=
  match runBatch cfg env s j with
  | some r => some r
  | none =>
    match p with
    | none => runSender cfg env s j
    | some p => runPipe env s p j

attribute [grind =] runJob

def step (cfg : Config) (s : SenderState) : Event → Option SenderState
  | .ready batch => some { s with accumulator := s.accumulator ++ [batch] }
  | .run .sender env =>
    match s.sender with
    | [] => none
    | j :: rest => (runJob cfg env s none j).map fun r => { r.1 with sender := r.2 ++ rest }
  | .run (.writer pipe) env =>
    match s.pipes[pipe]? with
    | some p =>
      match p.writer with
      | [] => none
      | j :: rest => (runJob cfg env s (some p) j).map fun r =>
        modifyPipe r.1 pipe fun p => { p with writer := r.2 ++ rest }
    | none => none
  | .run (.reader pipe) env =>
    match s.pipes[pipe]? with
    | some p =>
      match p.reader with
      | [] => none
      | j :: rest => (runJob cfg env s (some p) j).map fun r =>
        modifyPipe r.1 pipe fun p => { p with reader := r.2 ++ rest }
    | none => none

/-- The requests that are queued or in flight, and the batches waiting to be retried. -/
def senderTotalInFlight (s : SenderState) : Int :=
  s.senderRetryQueue.length + (s.senderBrokerPipes.map fun e =>
    (e.2.map fun i => ((s.pipes[i]?).map Pipe.bpInFlightCount).getD 0).sum).sum

/-! ## What a step does -/

variable {cfg : Config} {env : Env} {s s' : SenderState}

variable {r : SenderState × List Job}

theorem runJob_sender {j : Job} (h : runJob cfg env s none j = some r) :
    runBatch cfg env s j = some r ∨ runSender cfg env s j = some r := by
  unfold runJob at h
  split at h
  · rename_i r' hr'
    exact Or.inl (hr'.trans h)
  · exact Or.inr h

theorem runJob_pipe {p : Pipe} {j : Job} (h : runJob cfg env s (some p) j = some r) :
    runBatch cfg env s j = some r ∨ runPipe env s p j = some r := by
  unfold runJob at h
  split at h
  · rename_i r' hr'
    exact Or.inl (hr'.trans h)
  · exact Or.inr h

/-- A step by who takes it. -/
inductive Steps (cfg : Config) (s : SenderState) : Event → SenderState → Prop
  | ready (b : ProducerBatch) : Steps cfg s (.ready b) { s with accumulator := s.accumulator ++ [b] }
  | sender {env : Env} {j : Job} {rest : List Job} {r : SenderState × List Job} (hs : s.sender = j :: rest)
      (hr : runBatch cfg env s j = some r ∨ runSender cfg env s j = some r) :
      Steps cfg s (.run .sender env) { r.1 with sender := r.2 ++ rest }
  | writer {i : PipeId} {env : Env} {p : Pipe} {j : Job} {rest : List Job} {r : SenderState × List Job}
      (hp : s.pipes[i]? = some p) (hs : p.writer = j :: rest)
      (hr : runBatch cfg env s j = some r ∨ runPipe env s p j = some r) :
      Steps cfg s (.run (.writer i) env) (modifyPipe r.1 i fun p => { p with writer := r.2 ++ rest })
  | reader {i : PipeId} {env : Env} {p : Pipe} {j : Job} {rest : List Job} {r : SenderState × List Job}
      (hp : s.pipes[i]? = some p) (hs : p.reader = j :: rest)
      (hr : runBatch cfg env s j = some r ∨ runPipe env s p j = some r) :
      Steps cfg s (.run (.reader i) env) (modifyPipe r.1 i fun p => { p with reader := r.2 ++ rest })

theorem steps_of_step {e : Event} (h : step cfg s e = some s') : Steps cfg s e s' := by
  cases e with
  | ready b =>
    cases h
    exact .ready b
  | run thread env =>
    cases thread with
    | sender =>
      simp only [step] at h
      split at h
      · cases h
      · rename_i j rest hs
        obtain ⟨r, hr, rfl⟩ := Option.map_eq_some_iff.1 h
        exact .sender hs (runJob_sender hr)
    | writer i =>
      simp only [step] at h
      split at h
      · rename_i p hp
        split at h
        · cases h
        · rename_i j rest hs
          obtain ⟨r, hr, rfl⟩ := Option.map_eq_some_iff.1 h
          exact .writer hp hs (runJob_pipe hr)
      · cases h
    | reader i =>
      simp only [step] at h
      split at h
      · rename_i p hp
        split at h
        · cases h
        · rename_i j rest hs
          obtain ⟨r, hr, rfl⟩ := Option.map_eq_some_iff.1 h
          exact .reader hp hs (runJob_pipe hr)
      · cases h

/-- The two states differ in the retry queue, the losses and the callbacks that ran. -/
structure Unmoved (s t : SenderState) : Prop where
  accumulator : t.accumulator = s.accumulator
  busy : t.senderBusy = s.senderBusy
  brokers : t.senderBrokerPipes = s.senderBrokerPipes
  pipes : t.pipes = s.pipes
  sender : t.sender = s.sender

/-- The jobs of `runBatch`. -/
def Job.isBatch : Job → Bool
  | .retryOrFail .. | .enqueueRetry .. | .failBatch .. | .succeed .. => true
  | _ => false

/-- The pipe that a job is on. -/
def Job.pipe : Job → Option PipeId
  | .round pipe _ | .count pipe _ | .write pipe _ | .writerRead pipe | .handOff pipe _ | .receive pipe
  | .resetCount pipe | .forget pipe | .countDown pipe => some pipe
  | _ => none

theorem failBatch_unmoved (s : SenderState) (why : Failure) (b : ProducerBatch) : Unmoved s (failBatch s why b) := by
  unfold failBatch
  split
  · exact ⟨rfl, rfl, rfl, rfl, rfl⟩
  · exact ⟨rfl, rfl, rfl, rfl, rfl⟩

theorem runBatch_unmoved {j : Job} (h : runBatch cfg env s j = some r) :
    Unmoved s r.1 ∧ j.isBatch = true ∧ ∀ j' ∈ r.2, j'.isBatch = true := by
  cases j with
  | retryOrFail why b =>
    simp only [runBatch] at h
    split at h
    · cases h
      exact ⟨⟨rfl, rfl, rfl, rfl, rfl⟩, rfl, List.forall_mem_singleton.2 rfl⟩
    · cases h
      exact ⟨⟨rfl, rfl, rfl, rfl, rfl⟩, rfl, List.forall_mem_singleton.2 rfl⟩
  | enqueueRetry due b =>
    cases h
    exact ⟨⟨rfl, rfl, rfl, rfl, rfl⟩, rfl, List.forall_mem_nil _⟩
  | failBatch why b =>
    cases h
    exact ⟨failBatch_unmoved s why b, rfl, List.forall_mem_nil _⟩
  | succeed off b =>
    cases h
    exact ⟨⟨rfl, rfl, rfl, rfl, rfl⟩, rfl, List.forall_mem_nil _⟩
  | _ => cases h

theorem runPipe_pipe {p : Pipe} {j : Job} (h : runPipe env s p j = some r) :
    (∃ i, j.pipe = some i) ∧ j.isBatch = false := by
  cases j with
  | writerRead i => exact ⟨⟨i, rfl⟩, rfl⟩
  | handOff i bs => exact ⟨⟨i, rfl⟩, rfl⟩
  | receive i => exact ⟨⟨i, rfl⟩, rfl⟩
  | resetCount i => exact ⟨⟨i, rfl⟩, rfl⟩
  | forget i => exact ⟨⟨i, rfl⟩, rfl⟩
  | countDown i => exact ⟨⟨i, rfl⟩, rfl⟩
  | _ => cases h

end Wireform.Kafka.Sender

/-
  The worker pool (`Kafka.Streams.Runtime.WorkerPool`).

  One thread submits records, others add and remove workers, and each worker has a loop
  that takes the records of its inbox one by one.  An event is what one of the threads
  does in one go: a transaction, or one read of a reference.

  * `submitRecord`: the routing table and the map of workers are read one after the
    other, and the record is enqueued later;
  * `submitRecordHashedWith`: one transaction, which routes by hash where the table has
    no live worker;
  * `addPoolWorker`, `removePoolWorker`: a worker that is removed gets no new routes,
    and is cancelled once it has processed what was submitted to it;
  * `workerLoop`: a record is fed to the engine, or dropped if the worker owns other
    partitions.

  Which records were routed to a worker, and which of them have been fed, is noted in
  `routed` and `finished`.
-/
import Mathlib.Data.Prod.Lex
import Mathlib.Data.String.Basic
import Mathlib.Logic.Function.Basic
import Wireform.AssocMap
import Wireform.Transition

namespace Wireform.Kafka.Streams.Pool

abbrev TopicPartition := String ×ₗ Int

structure WorkRecord where
  wrTopic : String
  wrKey : Option (List UInt8)
  wrValue : List UInt8
  wrTimestamp : Int
  wrPartition : Int
  wrOffset : Int
  wrHeaders : List (String × List UInt8)
  deriving DecidableEq, Repr

/-- The partition has 32 bits. -/
def topicPartition (topic : String) (part : Int) : TopicPartition := toLex (topic, Int.bmod part (2 ^ 32))

def WorkRecord.tp (r : WorkRecord) : TopicPartition := topicPartition r.wrTopic r.wrPartition

/-- Where the loop of a worker is. -/
inductive Loop where
  | waiting
  /-- In `feedSourceH`. -/
  | feeding (r : WorkRecord)
  /-- Before the record is counted. -/
  | counting
  | gone
  deriving DecidableEq, Repr

structure Worker where
  workerOwned : List TopicPartition
  workerInbox : List WorkRecord
  workerStop : Bool
  workerProcessed : Nat
  workerSubmitted : Nat
  workerLoop : Loop
  deriving DecidableEq

def mkWorker (owned : List TopicPartition) : Worker where
  workerOwned := owned
  workerInbox := []
  workerStop := false
  workerProcessed := 0
  workerSubmitted := 0
  workerLoop := .waiting

/-- A worker is known by its id. -/
structure WorkerPool where
  poolWorkersTV : List Nat
  poolByIdxTV : List Nat
  poolRouting : AssocMap TopicPartition Nat
  poolNextOff : Int
  poolNextWorkerId : Nat
  worker : Nat → Worker

/-- Of two workers with one partition the later counts. -/
def buildRouting (perWorker : List (List TopicPartition)) : AssocMap TopicPartition Nat :=
  AssocMap.fromList (perWorker.zipIdx.flatMap fun e => e.1.map fun tp => (tp, e.2))

def newWorkerPool (perWorkerOwnership : List (List TopicPartition)) : WorkerPool where
  poolWorkersTV := List.range perWorkerOwnership.length
  poolByIdxTV := List.range perWorkerOwnership.length
  poolRouting := buildRouting perWorkerOwnership
  poolNextOff := 0
  poolNextWorkerId := perWorkerOwnership.length
  worker := fun idx => mkWorker (perWorkerOwnership.getD idx [])

def WorkerPool.update (p : WorkerPool) (w : Nat) (x : Worker) : WorkerPool :=
  { p with worker := Function.update p.worker w x }

/-! ## Submission -/

/-- `writeTQueue`, and one more in `workerSubmitted`. -/
def Worker.enqueue (x : Worker) (r : WorkRecord) : Worker :=
  { x with workerInbox := x.workerInbox ++ [r], workerSubmitted := x.workerSubmitted + 1 }

def chooseHashed (ids : List Nat) (h : Int64) : Nat := ids.getD (h.toInt % ids.length).toNat 0

/-- The worker of a partition, and the routing table that says so. -/
def routeHashed (hash : TopicPartition → Int64) (p : WorkerPool) (tp : TopicPartition) :
    Nat × AssocMap TopicPartition Nat :=
  let i' := chooseHashed p.poolWorkersTV (hash tp).abs
  match AssocMap.lookup tp p.poolRouting with
  | some i =>
    if i ∈ p.poolWorkersTV then (i, p.poolRouting)
    -- the worker has been removed
    else (i', AssocMap.insert tp i' p.poolRouting)
  | none => (i', AssocMap.insert tp i' p.poolRouting)

/-- The thread that submits records. -/
inductive Submitter where
  | idle
  | readRouting (r : WorkRecord)
  | readByIdx (r : WorkRecord) (idx : Nat)
  | enqueue (r : WorkRecord) (w : Nat)
  deriving DecidableEq, Repr

structure State where
  pool : WorkerPool
  submitter : Submitter
  /-- The workers that are made and not yet in the pool. -/
  adding : List Nat
  /-- The workers that `removePoolWorker` waits for. -/
  draining : List Nat
  /-- The workers that have processed everything, and are about to be cancelled. -/
  cancelling : List Nat
  routed : List WorkRecord
  finished : List WorkRecord

def State.init (perWorkerOwnership : List (List TopicPartition)) : State where
  pool := newWorkerPool perWorkerOwnership
  submitter := .idle
  adding := []
  draining := []
  cancelling := []
  routed := []
  finished := []

/-- `submitRecord` up to its first read. -/
def submitRecord (topic : String) (key : Option (List UInt8)) (val : List UInt8) (ts part : Int) (s : State) : State :=
  { s with
    pool := { s.pool with poolNextOff := s.pool.poolNextOff + 1 }
    submitter := .readRouting ⟨topic, key, val, ts, part, s.pool.poolNextOff, []⟩ }

/-- What `submitRecord` does next. -/
def submitNext (s : State) : Option State :=
  match s.submitter with
  | .idle => none
  | .readRouting r =>
    match AssocMap.lookup r.tp s.pool.poolRouting with
    | none => some { s with submitter := .idle }
    | some idx => some { s with submitter := .readByIdx r idx }
  | .readByIdx r idx =>
    if idx ∈ s.pool.poolByIdxTV then
      some { s with submitter := .enqueue r idx, routed := s.routed ++ [r] }
    else some { s with submitter := .idle }
  | .enqueue r w =>
    some { s with submitter := .idle, pool := s.pool.update w ((s.pool.worker w).enqueue r) }

def submitRecordHashedWith (hash : TopicPartition → Int64) (r : WorkRecord) (s : State) : State :=
  if s.pool.poolWorkersTV = [] then s
  else
    let (idx, routing) := routeHashed hash s.pool r.tp
    let pool := { s.pool with poolRouting := routing }
    if idx ∈ s.pool.poolByIdxTV then
      { s with
        pool := pool.update idx ((s.pool.worker idx).enqueue r)
        routed := s.routed ++ [r] }
    else { s with pool := pool }

/-! ## Membership -/

/-- The id is reserved, and the worker is made. -/
def addPoolWorker (s : State) : State :=
  let idx := s.pool.poolNextWorkerId
  { s with
    pool := { s.pool.update idx (mkWorker []) with poolNextWorkerId := idx + 1 }
    adding := s.adding ++ [idx] }

/-- The new worker is put into the pool. -/
def publishWorker (idx : Nat) (s : State) : Option State :=
  if idx ∈ s.adding then
    some { s with
      pool := { s.pool with
        poolWorkersTV := s.pool.poolWorkersTV ++ [idx]
        poolByIdxTV := idx :: s.pool.poolByIdxTV }
      adding := s.adding.erase idx }
  else none

/-- The first transaction of `removePoolWorker`. -/
def removePoolWorker (s : State) : State :=
  match s.pool.poolWorkersTV.getLast? with
  | none => s
  | some idx =>
    let pool := s.pool.update idx { s.pool.worker idx with workerStop := true }
    { s with
      pool := { pool with
        poolWorkersTV := s.pool.poolWorkersTV.dropLast
        poolByIdxTV := s.pool.poolByIdxTV.filter fun i => i ≠ idx
        poolRouting := s.pool.poolRouting.filter fun e => e.2 ≠ idx }
      draining := s.draining ++ [idx] }

/-- The worker has processed all that was submitted to it. -/
def drained (w : Nat) (s : State) : Option State :=
  if w ∈ s.draining ∧ (s.pool.worker w).workerSubmitted ≤ (s.pool.worker w).workerProcessed then
    some { s with draining := s.draining.erase w, cancelling := s.cancelling ++ [w] }
  else none

def cancelWorker (w : Nat) (s : State) : Option State :=
  if w ∈ s.cancelling then
    some { s with
      pool := s.pool.update w { s.pool.worker w with workerLoop := .gone }
      cancelling := s.cancelling.erase w }
  else none

/-! ## The loop of a worker -/

/-- The worker processes the partition. -/
def Worker.owns (x : Worker) (tp : TopicPartition) : Bool := x.workerOwned.isEmpty || x.workerOwned.contains tp

def workerLoop (w : Nat) (s : State) : Option State :=
  let x := s.pool.worker w
  match x.workerLoop with
  | .waiting =>
    match x.workerInbox with
    | r :: rest =>
      let loop := if x.owns r.tp then Loop.feeding r else .counting
      some { s with pool := s.pool.update w { x with workerInbox := rest, workerLoop := loop } }
    | [] =>
      if x.workerStop then some { s with pool := s.pool.update w { x with workerLoop := .gone } }
      else none
  | .feeding r =>
    some { s with
      pool := s.pool.update w { x with workerLoop := .counting }
      finished := s.finished ++ [r] }
  | .counting =>
    some { s with
      pool := s.pool.update w { x with workerProcessed := x.workerProcessed + 1, workerLoop := .waiting } }
  | .gone => none

inductive Event where
  | submitRecord (topic : String) (key : Option (List UInt8)) (val : List UInt8) (ts part : Int)
  /-- The submitting thread goes on. -/
  | submitNext
  | submitRecordHashedWith (r : WorkRecord)
  | addPoolWorker
  | publishWorker (idx : Nat)
  | removePoolWorker
  | drained (w : Nat)
  | cancelWorker (w : Nat)
  /-- The loop of a worker goes on. -/
  | workerLoop (w : Nat)

/-- There is one submitter, which submits one record after the other. -/
def step (hash : TopicPartition → Int64) (s : State) : Event → Option State
  | .submitRecord topic key val ts part =>
    if s.submitter = .idle then some (submitRecord topic key val ts part s) else none
  | .submitNext => submitNext s
  | .submitRecordHashedWith r => if s.submitter = .idle then some (submitRecordHashedWith hash r s) else none
  | .addPoolWorker => some (addPoolWorker s)
  | .publishWorker idx => publishWorker idx s
  | .removePoolWorker => some (removePoolWorker s)
  | .drained w => drained w s
  | .cancelWorker w => cancelWorker w s
  | .workerLoop w => workerLoop w s

end Wireform.Kafka.Streams.Pool

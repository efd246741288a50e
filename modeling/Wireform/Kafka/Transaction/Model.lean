/-
  Transactions of a producer (`Kafka.Client.Transaction`, and the send check of
  `Kafka.Client.Producer`).

  Threads share a handle whose references are read and written one at a time.  A call
  is where its thread has got to (`Pc`), and `next` is what the thread does in one go:
  one read or write, one transaction on the sets of partitions, or what it makes of an
  answer of the coordinator.

  * `beginTransaction`, `commitTransaction`, `abortTransaction`: the moves of the state;
  * `fullPreSendCheck`: the gate of a send, `registerPartition`, the sequence number;
  * `withCoordinatorRetry`: a request, its answers, and the search for the coordinator.

  What the coordinator has accepted, and whose writes have gone where, is noted in
  `History`; an accepted request is one that is answered with success.
-/
import Mathlib.Data.Finset.Basic
import Mathlib.Data.Prod.Lex
import Mathlib.Data.String.Basic
import Wireform.AssocMap
import Wireform.Transition

namespace Wireform.Kafka.Transaction

abbrev TopicPartition := String ×ₗ Int

structure TransactionCoordinator where
  tcNodeId : Int
  tcHost : String
  tcPort : Int
  deriving DecidableEq, Repr

/-- `TransactionCoordinatorError`. -/
inductive CoordinatorError where
  | CoordinatorNotAvailable (msg : String)
  | CoordinatorLoadInProgress (msg : String)
  | NotCoordinator (msg : String)
  | InvalidProducerIdMapping (msg : String)
  | InvalidProducerEpoch (msg : String)
  | InvalidTxnState (msg : String)
  | InvalidPartitionsInTxn (msg : String)
  | TransactionCoordinatorFenced (msg : String)
  | ConcurrentTransactions (msg : String)
  | ProducerFenced (msg : String)
  | UnknownCoordinatorError (code : Int) (msg : String)
  deriving DecidableEq, Repr

inductive TransactionState where
  | Uninitialized
  | Ready
  | InTransaction
  | Committing
  | Aborting
  | Aborted
  | Fenced
  /-- A fatal error; its text shows the cause. -/
  | Error (cause : CoordinatorError)
  deriving DecidableEq, Repr

inductive TransactionError where
  | TransactionNotInitialized (msg : String)
  | TransactionAlreadyInProgress (msg : String)
  | TransactionNotInProgress (msg : String)
  | InvalidStateTransition (a b : TransactionState)
  | ProducerFenced (msg : String)
  | CoordinatorNotAvailable (msg : String)
  | TransactionAborted (msg : String)
  /-- Its text shows the cause. -/
  | UnknownTransactionError (cause : CoordinatorError)
  | ConsumerGroupFenced (msg : String)
  deriving DecidableEq, Repr

def coordinatorErrorToTxn : CoordinatorError → TransactionError
  | .ProducerFenced m => .ProducerFenced m
  | .TransactionCoordinatorFenced m => .ProducerFenced m
  | .InvalidProducerEpoch m => .ProducerFenced m
  | .CoordinatorNotAvailable m => .CoordinatorNotAvailable m
  | .CoordinatorLoadInProgress m => .CoordinatorNotAvailable m
  | .NotCoordinator m => .CoordinatorNotAvailable m
  | .ConcurrentTransactions m => .CoordinatorNotAvailable m
  | .UnknownCoordinatorError code m =>
    if code = 22 ∨ code = 25 ∨ code = 82 then .ConsumerGroupFenced m
    else .UnknownTransactionError (.UnknownCoordinatorError code m)
  | e => .UnknownTransactionError e

def retriable : CoordinatorError → Bool
  | .ConcurrentTransactions _ => true
  | .CoordinatorLoadInProgress _ => true
  | .CoordinatorNotAvailable _ => true
  | .NotCoordinator _ => true
  | _ => false

def isValidTransition (a b : TransactionState) : Bool :=
  match a, b with
  | .Uninitialized, .Ready => true
  | .Ready, .InTransaction => true
  | .InTransaction, .Committing => true
  | .InTransaction, .Aborting => true
  | .Committing, .Ready => true
  | .Aborting, .Aborted => true
  | .Aborted, .Ready => true
  | _, .Error _ => true
  | _, .Fenced => true
  -- the same state is always valid
  | a, b => a = b

/-- The state a failed end leaves behind. -/
def failedState (back : TransactionState) (err : CoordinatorError) : TransactionState :=
  match coordinatorErrorToTxn err with
  | .ProducerFenced _ => .Fenced
  | .CoordinatorNotAvailable _ => back
  | _ => .Error err

/-- The handle, and the sequence numbers of its producer. -/
structure Handle where
  txnProducerId : Option Int
  txnProducerEpoch : Option Int
  txnState : TransactionState
  txnPartitions : Finset TopicPartition
  txnPendingPartitions : Finset TopicPartition
  txnEpochBumpNeeded : Bool
  txnStarted : Bool
  txnCoordinator : Option TransactionCoordinator
  producerSequenceEpoch : Int × Int
  producerSequenceNumbers : AssocMap TopicPartition Int32

/-- What has happened. -/
structure History where
  /-- The transactions that were begun. -/
  begun : Nat
  /-- The transactions in which an `EndTxn` was accepted. -/
  ended : List Nat
  /-- The transactions to which a partition, or offsets, were added before their end. -/
  added : List (Nat × Option TopicPartition)
  /-- For each state a commit or abort has written: its transaction, and the latest. -/
  writes : List (Nat × Nat)
  /-- The state has been `Fenced`. -/
  fenced : Bool

structure World where
  handle : Handle
  history : History

/-! ## Calls -/

structure BatchStamp where
  stampProducerId : Int
  stampProducerEpoch : Int
  stampBaseSequence : Int32
  stampIsTransactional : Bool
  deriving DecidableEq, Repr

/-- The text of a failed send, less a cause that it shows. -/
inductive SendError where
  | reason (text : String)
  /-- "transactional producer in error state: " -/
  | inErrorState (cause : CoordinatorError)
  /-- "transactional producer: cannot send in state " -/
  | cannotSend (st : TransactionState)
  /-- "transactional producer: AddPartitionsToTxn failed: " -/
  | addPartitionsFailed (cause : CoordinatorError)
  deriving DecidableEq, Repr

inductive Result where
  | txn (r : Except TransactionError Unit)
  | stamp (r : Except SendError BatchStamp)

def Result.ok : Result := .txn (.ok ())

def Result.err (e : TransactionError) : Result := .txn (.error e)

inductive Op where
  | begin
  | commit
  | abort
  | send (tp : TopicPartition)
  | sendOffsets (group : String)
  deriving DecidableEq

inductive Request where
  | endTxn (commit : Bool) (pid epoch : Int)
  | initProducerId (pid epoch : Int)
  | addPartitions (tp : TopicPartition) (pid epoch : Int)
  | addOffsets (group : String) (pid epoch : Int)
  deriving DecidableEq

/-- An answer; the ids count where a producer id was asked for. -/
abbrev Answer := Except CoordinatorError (Int × Int)

/-- Where a thread has got to. -/
inductive Pc where
  | start
  | readSendFailed (st : TransactionState)
  | move
  | clearPartitions
  | clearStarted
  | readCoordinator
  | readProducerId (coord : Option TransactionCoordinator)
  | readProducerEpoch (coord : Option TransactionCoordinator) (pid : Option Int)
  | readStarted (coord : Option TransactionCoordinator) (pid epoch : Option Int)
  | retry (r : Request)
  | asked (r : Request) (coord : TransactionCoordinator)
  | rediscover (r : Request) (coord : TransactionCoordinator)
  | answered (r : Request) (x : Answer)
  | bumpProducerId (pid epoch : Int)
  | bumpProducerEpoch (epoch : Int)
  | bumped
  | failEnd (err : CoordinatorError)
  | writeAborted
  | writeReady
  | gateProducerId (st : TransactionState)
  | gateProducerEpoch (st : TransactionState) (pid : Option Int)
  | claim (pid epoch : Int)
  | setStarted (pid epoch : Int)
  | publish (pid epoch : Int) (failed : Option CoordinatorError)
  | allocate (pid epoch : Int)
  | commitOffsets
  | done (r : Result)

structure Call where
  op : Op
  /-- The transaction it belongs to, once it does. -/
  txn : Nat
  pc : Pc

/-- What comes to a thread from outside. -/
inductive Input where
  | go
  /-- An answer, and whether the deadline has passed. -/
  | answer (x : Answer) (late : Bool)
  | found (coord : Option TransactionCoordinator)

/-! ## The state -/

def setState (w : World) (st : TransactionState) : World :=
  { w with handle := { w.handle with txnState := st } }

/-- `beginTransaction`, from the state it read. -/
def beginFrom : TransactionState → Pc
  | .Ready => .move
  | .InTransaction => .done (.err (.TransactionAlreadyInProgress "Transaction already in progress"))
  | .Uninitialized => .done (.err (.TransactionNotInitialized "Must call initTransactions first"))
  | .Error cause => .done (.err (.UnknownTransactionError cause))
  | .Fenced => .done (.err (.ProducerFenced "Producer has been fenced"))
  | st => .done (.err (.InvalidStateTransition st .InTransaction))

/-- `commitTransaction`, from the state and the flag it read. -/
def commitFrom (sendFailed : Bool) : TransactionState → Pc
  | .InTransaction =>
    if sendFailed then .done (.err (.TransactionAborted "a record of this transaction failed to send: abort it"))
    else .move
  | .Committing => .done .ok
  | .Ready => .done (.err (.TransactionNotInProgress "No transaction in progress"))
  | .Uninitialized => .done (.err (.TransactionNotInitialized "Must call initTransactions first"))
  | .Error cause => .done (.err (.UnknownTransactionError cause))
  | .Fenced => .done (.err (.ProducerFenced "Producer has been fenced"))
  | st => .done (.err (.InvalidStateTransition st .Committing))

/-- `abortTransaction`, from the state it read. -/
def abortFrom : TransactionState → Pc
  | .InTransaction => .move
  | .Aborting => .done .ok
  | .Ready => .done (.err (.TransactionNotInProgress "No transaction in progress"))
  | .Uninitialized => .done (.err (.TransactionNotInitialized "Must call initTransactions first"))
  | .Error cause => .done (.err (.UnknownTransactionError cause))
  | .Fenced => .done (.err (.ProducerFenced "Producer has been fenced"))
  | st => .done (.err (.InvalidStateTransition st .Aborting))

/-- `sendOffsetsToTransaction`, from the state it read. -/
def sendOffsetsFrom : TransactionState → Pc
  | .InTransaction => .readCoordinator
  | _ => .done (.err (.TransactionNotInProgress "Must be in a transaction to commit offsets"))

def producerTxnGate (st : TransactionState) (mPid mEpoch : Option Int) : Except SendError (Int × Int) :=
  match st with
  | .InTransaction =>
    match mPid, mEpoch with
    | some pid, some ep => .ok (pid, ep)
    | _, _ => .error (.reason ("transactional producer: missing producer-id/epoch " ++
        "(call initTransactions before sending)"))
  | .Uninitialized => .error (.reason "transactional producer: must call initTransactions before sending")
  | .Ready => .error (.reason "transactional producer: must call beginTransaction before sending")
  | .Fenced => .error (.reason "transactional producer: producer fenced")
  | .Error cause => .error (.inErrorState cause)
  | st => .error (.cannotSend st)

/-- A call has read the state. -/
def enter (w : World) (c : Call) : Call :=
  match c.op with
  | .begin => { c with pc := beginFrom w.handle.txnState }
  | .commit => { c with pc := .readSendFailed w.handle.txnState }
  | .abort => { c with pc := abortFrom w.handle.txnState }
  | .send _ => { c with txn := w.history.begun, pc := .gateProducerId w.handle.txnState }
  | .sendOffsets _ => { c with txn := w.history.begun, pc := sendOffsetsFrom w.handle.txnState }

/-- `transitionState` for a begin. -/
def moveBegin (w : World) (c : Call) : World × Call :=
  if isValidTransition w.handle.txnState .InTransaction then
    -- a move from `InTransaction` to itself opens no transaction
    let n := if w.handle.txnState = .InTransaction then w.history.begun else w.history.begun + 1
    ({ setState w .InTransaction with history := { w.history with begun := n } },
      { c with txn := n, pc := .clearPartitions })
  else (w, { c with pc := .done (.err (.InvalidStateTransition .Ready .InTransaction)) })

/-- `transitionState` for a commit or an abort. -/
def moveEnd (w : World) (c : Call) (st : TransactionState) : World × Call :=
  if isValidTransition w.handle.txnState st then
    (setState w st, { c with txn := w.history.begun, pc := .readCoordinator })
  else (w, { c with pc := .done (.err (.InvalidStateTransition .InTransaction st)) })

/-- A commit or an abort writes the state, whatever it is. -/
def writeState (w : World) (c : Call) (st : TransactionState) : World :=
  { setState w st with history := { w.history with
      writes := w.history.writes ++ [(c.txn, w.history.begun)]
      fenced := w.history.fenced || st = .Fenced } }

/-! ## Requests -/

/-- The coordinator accepts a request. -/
def accept (r : Request) (g : History) : History :=
  match r with
  | .endTxn _ _ _ => { g with ended := g.ended ++ [g.begun] }
  | .initProducerId _ _ => g
  | .addPartitions tp _ _ => if g.begun ∈ g.ended then g else { g with added := g.added ++ [(g.begun, some tp)] }
  | .addOffsets _ _ _ => if g.begun ∈ g.ended then g else { g with added := g.added ++ [(g.begun, none)] }

/-- `withCoordinatorRetry` has an answer. -/
def onAnswer (w : World) (r : Request) (coord : TransactionCoordinator) (x : Answer) (late : Bool) : World × Pc :=
  match x with
  | .ok ids => ({ w with history := accept r w.history }, .answered r (.ok ids))
  | .error err =>
    if retriable err ∧ ¬ late then
      (w, match err with
        | .ConcurrentTransactions _ => .asked r coord
        | _ => .rediscover r coord)
    else (w, .answered r (.error err))

/-- What a call does with the answer to its request. -/
def afterAnswer (w : World) (r : Request) (x : Answer) : Pc :=
  match r with
  | .endTxn true _ _ =>
    match x with
    | .ok _ => .writeReady
    | .error err => .failEnd err
  | .endTxn false pid epoch =>
    match x with
    | .ok _ => if w.handle.txnEpochBumpNeeded then .retry (.initProducerId pid epoch) else .writeAborted
    | .error err => .failEnd err
  | .initProducerId _ _ =>
    match x with
    | .ok (pid, epoch) => .bumpProducerId pid epoch
    | .error err => .failEnd err
  | .addPartitions _ pid epoch =>
    match x with
    | .ok _ => .setStarted pid epoch
    | .error err => .publish pid epoch (some err)
  | .addOffsets _ pid epoch =>
    match x with
    | .ok _ => .setStarted pid epoch
    | .error err => .done (.err (coordinatorErrorToTxn err))

/-- The last of the four reads: what a commit or an abort does, or `sendOffsets`. -/
def haveRead (c : Call) (started : Bool) (coord : Option TransactionCoordinator) (pid epoch : Option Int) : Pc :=
  let missing : Pc := .done (.err (.TransactionNotInitialized "Missing producer ID or coordinator"))
  match c.op with
  | .commit =>
    if ¬ started then .writeReady
    else match coord, pid, epoch with
      | some _, some pid, some epoch => .retry (.endTxn true pid epoch)
      | _, _, _ => missing
  | .abort =>
    if ¬ started then .writeReady
    else match coord, pid, epoch with
      | some _, some pid, some epoch => .retry (.endTxn false pid epoch)
      | _, _, _ => missing
  | .sendOffsets group =>
    match coord, pid, epoch with
    | some _, some pid, some epoch => .retry (.addOffsets group pid epoch)
    | _, _, _ => missing
  | _ => missing

/-! ## Partitions -/

/-- The first transaction of `registerPartition`: the partition is there, or it is
    claimed; one that another thread has claimed is waited for. -/
def claimPartition (h : Handle) (tp : TopicPartition) (pid epoch : Int) : Option (Handle × Pc) :=
  if tp ∈ h.txnPartitions then some (h, .allocate pid epoch)
  else if tp ∈ h.txnPendingPartitions then none
  else some ({ h with txnPendingPartitions := insert tp h.txnPendingPartitions },
    .retry (.addPartitions tp pid epoch))

/-- The second one. -/
def publishPartition (h : Handle) (tp : TopicPartition) (pid epoch : Int) : Option CoordinatorError → Handle × Pc
  | none =>
    ({ h with
        txnPendingPartitions := h.txnPendingPartitions.erase tp
        txnPartitions := insert tp h.txnPartitions },
      .allocate pid epoch)
  | some err =>
    ({ h with txnPendingPartitions := h.txnPendingPartitions.erase tp }, .done (.stamp (.error (.addPartitionsFailed err))))

/-- The sequence number of a send; a new producer id or epoch starts them over. -/
def allocateSequence (h : Handle) (tp : TopicPartition) (pid epoch : Int) : Handle × BatchStamp :=
  let numbers := if h.producerSequenceEpoch ≠ (pid, epoch) then [] else h.producerSequenceNumbers
  let cur := (AssocMap.lookup tp numbers).getD 0
  ({ h with
      producerSequenceEpoch := (pid, epoch)
      producerSequenceNumbers := AssocMap.insert tp (cur + 1) numbers },
    ⟨pid, epoch, cur, true⟩)

/-! ## Steps -/

/-- What a thread does in one go. -/
def next (w : World) (c : Call) : Input → Option (World × Call)
  | .go =>
    match c.pc with
    | .start => some (w, enter w c)
    | .readSendFailed st => some (w, { c with pc := commitFrom w.handle.txnEpochBumpNeeded st })
    | .move =>
      match c.op with
      | .begin => some (moveBegin w c)
      | .commit => some (moveEnd w c .Committing)
      | .abort => some (moveEnd w c .Aborting)
      | _ => none
    | .clearPartitions =>
      some ({ w with handle := { w.handle with txnPartitions := ∅ } }, { c with pc := .clearStarted })
    | .clearStarted =>
      some ({ w with handle := { w.handle with txnStarted := false } }, { c with pc := .done .ok })
    | .readCoordinator => some (w, { c with pc := .readProducerId w.handle.txnCoordinator })
    | .readProducerId coord => some (w, { c with pc := .readProducerEpoch coord w.handle.txnProducerId })
    | .readProducerEpoch coord pid =>
      match c.op with
      | .sendOffsets _ => some (w, { c with pc := haveRead c true coord pid w.handle.txnProducerEpoch })
      | _ => some (w, { c with pc := .readStarted coord pid w.handle.txnProducerEpoch })
    | .readStarted coord pid epoch => some (w, { c with pc := haveRead c w.handle.txnStarted coord pid epoch })
    | .retry r =>
      some (w, { c with pc := match w.handle.txnCoordinator with
        | none => .answered r (.error (.CoordinatorNotAvailable
            "no transaction coordinator (initTransactions never completed?)"))
        | some coord => .asked r coord })
    | .answered r x => some (w, { c with pc := afterAnswer w r x })
    | .bumpProducerId pid epoch =>
      some ({ w with handle := { w.handle with txnProducerId := some pid } }, { c with pc := .bumpProducerEpoch epoch })
    | .bumpProducerEpoch epoch =>
      some ({ w with handle := { w.handle with txnProducerEpoch := some epoch } }, { c with pc := .bumped })
    | .bumped =>
      some ({ w with handle := { w.handle with txnEpochBumpNeeded := false } }, { c with pc := .writeAborted })
    | .failEnd err =>
      some (writeState w c (failedState .InTransaction err), { c with pc := .done (.err (coordinatorErrorToTxn err)) })
    | .writeAborted => some (writeState w c .Aborted, { c with pc := .writeReady })
    | .writeReady => some (writeState w c .Ready, { c with pc := .done .ok })
    | .gateProducerId st => some (w, { c with pc := .gateProducerEpoch st w.handle.txnProducerId })
    | .gateProducerEpoch st pid =>
      some (w, { c with pc := match producerTxnGate st pid w.handle.txnProducerEpoch with
        | .ok (pid, epoch) => .claim pid epoch
        | .error err => .done (.stamp (.error err)) })
    | .claim pid epoch =>
      match c.op with
      | .send tp => (claimPartition w.handle tp pid epoch).map fun (h, pc) => ({ w with handle := h }, { c with pc := pc })
      | _ => none
    | .setStarted pid epoch =>
      some ({ w with handle := { w.handle with txnStarted := true } },
        { c with pc := match c.op with
          | .send _ => .publish pid epoch none
          | _ => .commitOffsets })
    | .publish pid epoch failed =>
      match c.op with
      | .send tp =>
        let (h, pc) := publishPartition w.handle tp pid epoch failed
        some ({ w with handle := h }, { c with pc := pc })
      | _ => none
    | .allocate pid epoch =>
      match c.op with
      | .send tp =>
        let (h, stamp) := allocateSequence w.handle tp pid epoch
        some ({ w with handle := h }, { c with pc := .done (.stamp (.ok stamp)) })
      | _ => none
    | _ => none
  | .answer x late =>
    match c.pc with
    | .asked r coord =>
      let (w', pc) := onAnswer w r coord x late
      some (w', { c with pc := pc })
    -- the group coordinator's answer to `TxnOffsetCommit`
    | .commitOffsets =>
      some (w, { c with pc := match x with
        | .ok _ => .done .ok
        | .error err => .done (.err (coordinatorErrorToTxn err)) })
    | _ => none
  | .found coord' =>
    match c.pc with
    | .rediscover r coord =>
      match coord' with
      | some new =>
        some ({ w with handle := { w.handle with txnCoordinator := some new } }, { c with pc := .asked r new })
      | none => some (w, { c with pc := .asked r coord })
    | _ => none

structure Sys where
  world : World
  calls : List Call

inductive Event where
  /-- A thread makes a call. -/
  | call (op : Op)
  /-- A thread goes on. -/
  | step (k : Nat) (i : Input)
  /-- A record failed to send for good. -/
  | markSendFailed

def step (s : Sys) : Event → Option Sys
  | .call op => some { s with calls := s.calls ++ [⟨op, 0, .start⟩] }
  | .step k i =>
    s.calls[k]?.bind fun c => (next s.world c i).map fun (w, c') => ⟨w, s.calls.set k c'⟩
  | .markSendFailed =>
    some { s with world := { s.world with handle := { s.world.handle with txnEpochBumpNeeded := true } } }

/-- A handle as it was created, with what `initTransactions` has made of it, and no
    calls. -/
def Sys.init (st : TransactionState) (coord : Option TransactionCoordinator) (pid epoch : Option Int) : Sys where
  world :=
    { handle :=
        { txnProducerId := pid
          txnProducerEpoch := epoch
          txnState := st
          txnPartitions := ∅
          txnPendingPartitions := ∅
          txnEpochBumpNeeded := false
          txnStarted := false
          txnCoordinator := coord
          producerSequenceEpoch := (-1, -1)
          producerSequenceNumbers := [] }
      history := ⟨0, [], [], [], st = .Fenced⟩ }
  calls := []

end Wireform.Kafka.Transaction

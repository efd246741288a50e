/-
  The mock cluster (`Kafka.Client.Mock.Cluster`): appends, fetches, transactions.

  Every operation is one transaction on the cluster's variables.  A partition keeps
  its records, its high-water mark, and the last stable offset, below which a
  consumer of committed records may read.

  * `appendToPartition`: add a record, at the high-water mark;
  * `commitTxn`, `abortTxn`: note the outcome of a transaction, and move the last
    stable offset of every partition it has touched;
  * `fetchSlice`: the records from an offset on, less those a consumer should not see;
  * `partition_modify`, `partition_advanceStable`, `partition_createTopic`: what an
    operation makes of one partition.
-/
import Mathlib.Data.Finset.Basic
import Mathlib.Data.Prod.Lex
import Mathlib.Data.String.Basic
import Wireform.AssocMap

namespace Wireform.Kafka.Mock

abbrev Bytes := List UInt8

abbrev TxnId := String

abbrev GroupId := String

abbrev BrokerId := Int

structure ProducerStamp where
  psTxnId : TxnId
  psEpoch : Int32
  deriving DecidableEq, Repr

inductive TxnState where
  | TxnOpen
  | TxnCommitted
  | TxnAborted
  deriving DecidableEq, Repr

structure StoredRecord where
  srOffset : Int
  srKey : Option Bytes
  srValue : Bytes
  srTimestamp : Int
  srHeaders : List (String × Bytes)
  srProducer : Option ProducerStamp
  deriving DecidableEq, Repr

structure MockPartition where
  mpLog : List StoredRecord
  mpHwm : Int
  mpLeader : BrokerId
  mpLastStableOffset : Int
  deriving DecidableEq, Repr

structure MockTopic where
  mtName : String
  mtPartitions : AssocMap Int MockPartition
  deriving DecidableEq, Repr

structure OffsetAndMetadata where
  oamOffset : Int
  oamMetadata : Option Bytes
  oamLeaderEpoch : Option Int32
  deriving DecidableEq, Repr

/-- What a group has committed, for each partition of a topic. -/
abbrev GroupMap (β : Type) := AssocMap GroupId (AssocMap (String ×ₗ Int) β)

structure MockCluster where
  mcTopics : AssocMap String MockTopic
  mcAutoCreate : Option Int
  mcGroups : GroupMap Int
  mcGroupsMeta : GroupMap OffsetAndMetadata
  mcTxns : AssocMap TxnId TxnState
  mcTxnPendingOffs : AssocMap TxnId (AssocMap (GroupId ×ₗ String ×ₗ Int) OffsetAndMetadata)
  mcTxnEpoch : AssocMap TxnId Int32
  mcCommittedStamps : Finset ProducerStamp
  mcAbortedStamps : Finset ProducerStamp
  mcBrokers : List BrokerId
  mcDownBrokers : Finset BrokerId

def newMockCluster (n : Int) : MockCluster where
  mcTopics := []
  mcAutoCreate := none
  mcGroups := []
  mcGroupsMeta := []
  mcTxns := []
  mcTxnPendingOffs := []
  mcTxnEpoch := []
  mcCommittedStamps := ∅
  mcAbortedStamps := ∅
  mcBrokers := (List.range n.toNat).map Int.ofNat
  mcDownBrokers := ∅

/-! ## Topics -/

def mkPartition (leader : BrokerId) : MockPartition where
  mpLog := []
  mpHwm := 0
  mpLeader := leader
  mpLastStableOffset := 0

/-- The leaders take turns. -/
def leaderAt (c : MockCluster) (i : Nat) : BrokerId := (c.mcBrokers[i % c.mcBrokers.length]?).getD 0

def createTopic (c : MockCluster) (topic : String) (n : Int) : Except String MockCluster :=
  if c.mcBrokers = [] then .error "createTopic: cluster has no brokers"
  else
    let parts := (List.range n.toNat).map fun i => (Int.ofNat i, mkPartition (leaderAt c i))
    match AssocMap.lookup topic c.mcTopics with
    | some t =>
      if t.mtPartitions.length = n then .ok c
      else .error ("createTopic: " ++ topic ++ " already exists with " ++ toString t.mtPartitions.length ++
        " partitions; cannot resize to " ++ toString n)
    | none => .ok { c with mcTopics := AssocMap.insert topic ⟨topic, parts⟩ c.mcTopics }

attribute [grind =] createTopic

/-- Create the topic if it is not there and `mcAutoCreate` says so. -/
def ensureTopicForAppend (c : MockCluster) (topic : String) : Except String MockCluster :=
  match AssocMap.lookup topic c.mcTopics with
  | some _ => .ok c
  | none =>
    match c.mcAutoCreate with
    | none => .ok c
    | some n => createTopic c topic n

def partition (c : MockCluster) (topic : String) (part : Int) : Option MockPartition :=
  (AssocMap.lookup topic c.mcTopics).bind fun mt => AssocMap.lookup part mt.mtPartitions

attribute [grind =] partition

/-- Change one partition. -/
def modifyPartition (c : MockCluster) (topic : String) (part : Int) (f : MockPartition → MockPartition) :
    MockCluster :=
  let change (mt : MockTopic) := { mt with mtPartitions := AssocMap.adjust f part mt.mtPartitions }
  { c with mcTopics := AssocMap.adjust change topic c.mcTopics }

/-! ## Append and fetch -/

/-- The producer's epoch has been superseded. -/
def fenced (c : MockCluster) : Option ProducerStamp → Bool
  | none => false
  | some st =>
    match AssocMap.lookup st.psTxnId c.mcTxnEpoch with
    | some cur => cur > st.psEpoch
    | none => false

/-- A record at the high-water mark.  One without a stamp is stable at once. -/
def MockPartition.push (p : MockPartition) (mk : Option Bytes) (v : Bytes) (ts : Int) (hdrs : List (String × Bytes))
    (stamp : Option ProducerStamp) : MockPartition :=
  { p with
    mpLog := p.mpLog ++ [⟨p.mpHwm, mk, v, ts, hdrs, stamp⟩]
    mpHwm := p.mpHwm + 1
    mpLastStableOffset := if stamp = none then p.mpHwm + 1 else p.mpLastStableOffset }

/-- Append a record, once the topic has been looked after. -/
def appendToPartition (c : MockCluster) (topic : String) (part : Int) (mk : Option Bytes) (v : Bytes) (ts : Int)
    (hdrs : List (String × Bytes)) (stamp : Option ProducerStamp) : Except String Int × MockCluster :=
  if fenced c stamp then (.error "fenced: producer epoch superseded", c)
  else
    match partition c topic part with
    | none => (.error ("appendToPartition: no partition " ++ toString part ++ " on topic " ++ topic), c)
    | some p =>
      if p.mpLeader ∈ c.mcDownBrokers then (.error "not_leader_for_partition", c)
      else (.ok p.mpHwm, modifyPartition c topic part fun p => p.push mk v ts hdrs stamp)

/-- At most `n` records from an offset on, below a limit. -/
def takeAt (from_ : Int) (n : Int) : List StoredRecord → Int → List StoredRecord
  | [], _ => []
  | r :: rs, ceiling =>
    if r.srOffset < from_ then takeAt from_ n rs ceiling
    else if r.srOffset ≥ ceiling then []
    else if n ≤ 0 then []
    else r :: takeAt from_ (n - 1) rs ceiling

def visibleAt (stableOnly : Bool) (committed aborted : Finset ProducerStamp) (r : StoredRecord) : Bool :=
  match r.srProducer with
  | none => true
  | some stamp =>
    if stamp ∈ aborted then false
    else if stamp ∈ committed then true
    else !stableOnly

/-- The records of a slice, and the offset to go on at. -/
def fetchSlice (c : MockCluster) (topic : String) (part from_ maxN : Int) (stableOnly : Bool) :
    Except String (List StoredRecord × Int) :=
  match partition c topic part with
  | none => .error "fetchSlice: no such partition"
  | some p =>
    let slice := takeAt from_ maxN p.mpLog (if stableOnly then p.mpLastStableOffset else p.mpHwm)
    .ok (slice.filter (visibleAt stableOnly c.mcCommittedStamps c.mcAbortedStamps),
      (slice.getLast?.map fun r => r.srOffset + 1).getD from_)

/-! ## Transactions -/

def beginTxn (c : MockCluster) (tid : TxnId) : MockCluster :=
  { c with
    mcTxns := AssocMap.insert tid .TxnOpen c.mcTxns
    mcTxnEpoch := AssocMap.insert tid ((AssocMap.lookup tid c.mcTxnEpoch).getD 0) c.mcTxnEpoch }

/-- The stamp of a transaction in its current epoch. -/
def currentStamp (c : MockCluster) (tid : TxnId) : ProducerStamp :=
  ⟨tid, (AssocMap.lookup tid c.mcTxnEpoch).getD 0⟩

def touched (tid : TxnId) (log : List StoredRecord) : Bool :=
  log.any fun r => r.srProducer.any fun st => st.psTxnId = tid

/-- The last stable offset goes up to the high-water mark. -/
def MockPartition.advanceStable (tid : TxnId) (p : MockPartition) : MockPartition :=
  if touched tid p.mpLog then { p with mpLastStableOffset := p.mpHwm } else p

def MockTopic.advanceStable (tid : TxnId) (mt : MockTopic) : MockTopic :=
  { mt with mtPartitions := mt.mtPartitions.map fun e => (e.1, e.2.advanceStable tid) }

def advanceStable (tid : TxnId) (topics : AssocMap String MockTopic) : AssocMap String MockTopic :=
  topics.map fun e => (e.1, e.2.advanceStable tid)

/-- The offsets that a transaction has staged, in the groups' own maps. -/
def mergeOffsets {β : Type} (f : OffsetAndMetadata → β)
    (per : AssocMap (GroupId ×ₗ String ×ₗ Int) OffsetAndMetadata) (m : GroupMap β) : GroupMap β :=
  per.foldl (fun acc e =>
    let k := ofLex e.1
    AssocMap.insert k.1 (AssocMap.insert k.2 (f e.2) ((AssocMap.lookup k.1 acc).getD [])) acc) m

/-- Commit a transaction, whether it is open or not. -/
def commitTxn (c : MockCluster) (tid : TxnId) : MockCluster :=
  let per := (AssocMap.lookup tid c.mcTxnPendingOffs).getD []
  { c with
    mcGroups := mergeOffsets OffsetAndMetadata.oamOffset per c.mcGroups
    mcGroupsMeta := mergeOffsets id per c.mcGroupsMeta
    mcTxnPendingOffs := c.mcTxnPendingOffs.filter fun e => e.1 ≠ tid
    mcTxns := AssocMap.insert tid .TxnCommitted c.mcTxns
    mcCommittedStamps := insert (currentStamp c tid) c.mcCommittedStamps
    mcTxnEpoch := AssocMap.adjust (· + 1) tid c.mcTxnEpoch
    mcTopics := advanceStable tid c.mcTopics }

/-- Abort a transaction, whether it is open or not. -/
def abortTxn (c : MockCluster) (tid : TxnId) : MockCluster :=
  { c with
    mcTxnPendingOffs := c.mcTxnPendingOffs.filter fun e => e.1 ≠ tid
    mcTxns := AssocMap.insert tid .TxnAborted c.mcTxns
    mcAbortedStamps := insert (currentStamp c tid) c.mcAbortedStamps
    mcTxnEpoch := AssocMap.adjust (· + 1) tid c.mcTxnEpoch
    mcTopics := advanceStable tid c.mcTopics }

/-- Stage offsets, to be committed with the transaction. -/
def sendOffsetsToTxn (c : MockCluster) (tid : TxnId) (grp : GroupId)
    (xs : List ((String × Int) × OffsetAndMetadata)) : MockCluster :=
  let cur := (AssocMap.lookup tid c.mcTxnPendingOffs).getD []
  let upd := xs.foldr (fun e acc => AssocMap.insert (toLex (grp, toLex e.1)) e.2 acc) cur
  { c with mcTxnPendingOffs := AssocMap.insert tid upd c.mcTxnPendingOffs }

/-! ## One partition -/

variable {c c' : MockCluster} {topic topic' : String} {part part' n : Int}

theorem partition_modify (c : MockCluster) (topic topic' : String) (part part' : Int)
    (f : MockPartition → MockPartition) :
    partition (modifyPartition c topic part f) topic' part' =
      if topic' = topic ∧ part' = part then (partition c topic part).map f else partition c topic' part' := by
  unfold partition modifyPartition
  rw [AssocMap.lookup_adjust]
  by_cases ht : topic' = topic
  · subst ht
    rw [if_pos rfl]
    cases AssocMap.lookup topic' c.mcTopics with
    | none => split_ifs <;> rfl
    | some mt =>
      rw [Option.map_some, Option.bind_some, AssocMap.lookup_adjust]
      by_cases hp : part' = part
      · rw [if_pos hp, if_pos ⟨rfl, hp⟩, Option.bind_some]
      · rw [if_neg hp, if_neg fun h => hp h.2, Option.bind_some]
  · rw [if_neg ht, if_neg fun h => ht h.1]

theorem partition_advanceStable (c : MockCluster) (tid topic : String) (part : Int) :
    partition { c with mcTopics := advanceStable tid c.mcTopics } topic part =
      (partition c topic part).map (MockPartition.advanceStable tid) := by
  unfold partition advanceStable
  rw [AssocMap.lookup_map]
  cases AssocMap.lookup topic c.mcTopics with
  | none => rfl
  | some mt => exact AssocMap.lookup_map _ _ _

/-- A topic that is created has empty partitions, and the others are as before. -/
theorem partition_createTopic (h : createTopic c topic n = .ok c') (topic' : String) (part : Int) :
    partition c' topic' part = partition c topic' part ∨
      partition c topic' part = none ∧ ∃ b, partition c' topic' part = some (mkPartition b) := by
  unfold createTopic at h
  split_ifs at h
  split at h
  · split_ifs at h
    cases h
    exact Or.inl rfl
  · rename_i hnone
    cases h
    unfold partition
    rw [AssocMap.lookup_insert]
    by_cases ht : topic' = topic
    · rw [if_pos ht, ht, hnone, Option.bind_some, Option.bind_none]
      cases hp : AssocMap.lookup part _ with
      | none => exact Or.inl rfl
      | some p =>
        obtain ⟨i, -, hi⟩ := List.mem_map.1 (AssocMap.mem_of_lookup hp)
        cases hi
        exact Or.inr ⟨rfl, _, rfl⟩
    · rw [if_neg ht]
      exact Or.inl rfl

/-- A topic is created with all else left alone. -/
theorem createTopic_stamps (h : createTopic c topic n = .ok c') :
    c'.mcCommittedStamps = c.mcCommittedStamps ∧ c'.mcAbortedStamps = c.mcAbortedStamps := by
  unfold createTopic at h
  split_ifs at h
  split at h
  · split_ifs at h
    cases h
    exact ⟨rfl, rfl⟩
  · cases h
    exact ⟨rfl, rfl⟩

theorem ensureTopicForAppend_ok (h : ensureTopicForAppend c topic = .ok c') :
    c' = c ∨ ∃ n, createTopic c topic n = .ok c' := by
  unfold ensureTopicForAppend at h
  split at h
  · cases h
    exact Or.inl rfl
  · split at h
    · cases h
      exact Or.inl rfl
    · exact Or.inr ⟨_, h⟩

/-- An append fails and changes nothing, or adds a record to its partition. -/
theorem appendToPartition_cases (c : MockCluster) (topic : String) (part : Int) (mk : Option Bytes) (v : Bytes)
    (ts : Int) (hdrs : List (String × Bytes)) (stamp : Option ProducerStamp) :
    (∃ err, appendToPartition c topic part mk v ts hdrs stamp = (.error err, c)) ∨
    (fenced c stamp = false ∧ ∃ p, partition c topic part = some p ∧ appendToPartition c topic part mk v ts hdrs stamp =
      (.ok p.mpHwm, modifyPartition c topic part fun p => p.push mk v ts hdrs stamp)) := by
  unfold appendToPartition
  by_cases hf : fenced c stamp = true
  · rw [if_pos hf]
    exact Or.inl ⟨_, rfl⟩
  · rw [if_neg hf]
    cases partition c topic part with
    | none => exact Or.inl ⟨_, rfl⟩
    | some p =>
      dsimp only
      split_ifs
      · exact Or.inl ⟨_, rfl⟩
      · exact Or.inr ⟨Bool.eq_false_of_not_eq_true hf, p, rfl, rfl⟩

end Wireform.Kafka.Mock

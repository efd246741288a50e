/-
  A consumer of committed records on the mock cluster.

  The consumer fetches one partition from offset 0 on, and goes on at the offset that
  each fetch returns, while records are appended and transactions begin and end.  What
  has become of each record (`Fate`) is noted beside the log.

  * `takeAt_eq`: on a log of consecutive offsets a slice is what is between two places;
  * `step_exact`: one step, with `Guarded` for what the code does not look after: a
    record of an open transaction below the last stable offset, and a stamp that is
    used again after its transaction has ended;
  * `read_committed_exact`: over a run the consumer has received the committed records
    in their order, and all of them once it has caught up;
  * `skipped_record`: a plain append moves the last stable offset past an open
    transaction, and the consumer never gets its record.
-/
import Wireform.Kafka.Mock.Cluster
import Wireform.Transition

namespace Wireform.Kafka.Mock

open Transition

/-- What has become of a record. -/
inductive Fate where
  /-- It was sent outside a transaction. -/
  | plain
  /-- Its transaction has not ended. -/
  | opened
  | committed
  | aborted
  deriving DecidableEq, Repr

/-- The cluster with a consumer of one partition. -/
structure Reader where
  cluster : MockCluster
  /-- What has become of the records in the log. -/
  fates : List Fate
  position : Int
  received : List StoredRecord

def Reader.init (brokers : Int) : Reader where
  cluster := newMockCluster brokers
  fates := []
  position := 0
  received := []

inductive Event where
  | createTopic (topic : String) (n : Int)
  | setAutoCreateTopics (m : Option Int)
  | ensureTopicForAppend (topic : String)
  | markBrokerDown (b : BrokerId)
  | markBrokerUp (b : BrokerId)
  | appendToPartition (topic : String) (part : Int) (mk : Option Bytes) (v : Bytes) (ts : Int)
      (hdrs : List (String × Bytes)) (stamp : Option ProducerStamp)
  | beginTxn (tid : TxnId)
  | commitTxn (tid : TxnId)
  | abortTxn (tid : TxnId)
  | sendOffsetsToTxn (tid : TxnId) (grp : GroupId) (xs : List ((String × Int) × OffsetAndMetadata))
  /-- The consumer fetches. -/
  | fetch (maxN : Int)

/-- What an event does to the cluster. -/
def operate (c : MockCluster) : Event → MockCluster
  | .createTopic topic n => (createTopic c topic n).toOption.getD c
  | .setAutoCreateTopics m => { c with mcAutoCreate := m }
  | .ensureTopicForAppend topic => (ensureTopicForAppend c topic).toOption.getD c
  | .markBrokerDown b => { c with mcDownBrokers := insert b c.mcDownBrokers }
  | .markBrokerUp b => { c with mcDownBrokers := c.mcDownBrokers.erase b }
  | .appendToPartition topic part mk v ts hdrs stamp => (appendToPartition c topic part mk v ts hdrs stamp).2
  | .beginTxn tid => beginTxn c tid
  | .commitTxn tid => commitTxn c tid
  | .abortTxn tid => abortTxn c tid
  | .sendOffsetsToTxn tid grp xs => sendOffsetsToTxn c tid grp xs
  | .fetch _ => c

attribute [grind =] operate

/-- The partition as the consumer sees it, empty until there is one. -/
def seen (c : MockCluster) (topic : String) (part : Int) : MockPartition :=
  (partition c topic part).getD (mkPartition 0)

/-- The records of a transaction share its end. -/
def settle (stamp : ProducerStamp) (f : Fate) (log : List StoredRecord) (fates : List Fate) : List Fate :=
  List.zipWith (fun r old => if old = .opened ∧ r.srProducer = some stamp then f else old) log fates

variable (topic : String) (part : Int)

/-- What has become of the records of the partition after an event. -/
def fatesAfter (s : Reader) : Event → List Fate
  | .appendToPartition topic' part' mk v ts hdrs stamp =>
    match (appendToPartition s.cluster topic' part' mk v ts hdrs stamp).1 with
    | .ok _ =>
      if topic = topic' ∧ part = part' then s.fates ++ [if stamp = none then .plain else .opened] else s.fates
    | .error _ => s.fates
  | .commitTxn tid => settle (currentStamp s.cluster tid) .committed (seen s.cluster topic part).mpLog s.fates
  | .abortTxn tid => settle (currentStamp s.cluster tid) .aborted (seen s.cluster topic part).mpLog s.fates
  | _ => s.fates

attribute [grind =] fatesAfter

/-- The consumer takes over what a fetch returns. -/
def Reader.fetch (s : Reader) (maxN : Int) : Reader :=
  match fetchSlice s.cluster topic part s.position maxN true with
  | .ok (rs, next) => { s with position := next, received := s.received ++ rs }
  | .error _ => s

def step (s : Reader) : Event → Option Reader
  | .fetch maxN => some (s.fetch topic part maxN)
  | e => some { s with cluster := operate s.cluster e, fates := fatesAfter topic part s e }

/-- A consumer of committed records should get it. -/
def Fate.deliverable : Fate → Bool
  | .plain => true
  | .opened => false
  | .committed => true
  | .aborted => false

/-- The committed and the plain records, in the order of the log. -/
def Reader.deliverables (s : Reader) : List StoredRecord :=
  (((seen s.cluster topic part).mpLog.zip s.fates).filter fun e => e.2.deliverable).map Prod.fst

/-! ## Fates -/

variable {committed aborted : Finset ProducerStamp} {r : StoredRecord} {st : ProducerStamp}

/-- What the stamps of the cluster say about a record. -/
def fateOf (committed aborted : Finset ProducerStamp) (r : StoredRecord) : Fate :=
  match r.srProducer with
  | none => .plain
  | some stamp => if stamp ∈ aborted then .aborted else if stamp ∈ committed then .committed else .opened

attribute [grind =] fateOf

/-- A consumer of committed records sees what it should get. -/
theorem visibleAt_eq (committed aborted : Finset ProducerStamp) :
    visibleAt true committed aborted = fun r => (fateOf committed aborted r).deliverable := by
  funext r
  unfold visibleAt fateOf
  cases r.srProducer with
  | none => rfl
  | some stamp =>
    dsimp only
    split_ifs
    · rfl
    · rfl
    · rfl

theorem fateOf_insert_committed (r : StoredRecord) : fateOf (insert st committed) aborted r =
    if fateOf committed aborted r = .opened ∧ r.srProducer = some st then .committed
    else fateOf committed aborted r := by
  unfold fateOf
  cases r.srProducer with
  | none => rfl
  | some stamp =>
    by_cases hs : stamp = st
    · subst hs
      by_cases ha : stamp ∈ aborted
      · simp [ha]
      · by_cases hc : stamp ∈ committed <;> simp [ha, hc]
    · simp [hs]

/-- A record that was committed does not take part in the abort. -/
theorem fateOf_insert_aborted (h : r.srProducer = some st → fateOf committed aborted r ≠ .committed) :
    fateOf committed (insert st aborted) r =
      if fateOf committed aborted r = .opened ∧ r.srProducer = some st then .aborted
      else fateOf committed aborted r := by
  unfold fateOf at *
  cases hp : r.srProducer with
  | none => rfl
  | some stamp =>
    rw [hp] at h
    by_cases hs : stamp = st
    · subst hs
      by_cases ha : stamp ∈ aborted
      · simp [ha]
      · by_cases hc : stamp ∈ committed
        · exact absurd (by simp [ha, hc]) (h rfl)
        · simp [ha, hc]
    · simp [hs]

theorem settle_map (f : Fate) (log : List StoredRecord) : settle st f log (log.map (fateOf committed aborted)) =
    log.map fun r => if fateOf committed aborted r = .opened ∧ r.srProducer = some st then f
      else fateOf committed aborted r := by
  unfold settle
  rw [List.zipWith_map_right, List.zipWith_self]

/-! ## Slices -/

/-- The offsets of the records are consecutive. -/
def Numbered : Int → List StoredRecord → Prop
  | _, [] => True
  | b, r :: rs => r.srOffset = b ∧ Numbered (b + 1) rs

variable {b from_ n : Int} {log : List StoredRecord}

theorem Numbered.snoc (h : Numbered b log) (hr : r.srOffset = b + log.length) : Numbered b (log ++ [r]) := by
  induction log generalizing b with
  | nil => exact ⟨by simpa using hr, trivial⟩
  | cons r' rs ih => exact ⟨h.1, ih h.2 (by rw [hr, List.length_cons]; omega)⟩

theorem Numbered.append_right {rs : List StoredRecord} (h : Numbered b (log ++ rs)) :
    Numbered (b + log.length) rs := by
  induction log generalizing b with
  | nil => simpa using h
  | cons r' log ih =>
    have hlen : b + ((r' :: log).length : Int) = b + 1 + log.length := by
      rw [List.length_cons]
      omega
    rw [hlen]
    exact ih h.2

theorem Numbered.bounds (h : Numbered b log) (hr : r ∈ log) :
    b ≤ r.srOffset ∧ r.srOffset < b + log.length := by
  obtain ⟨before, after, rfl⟩ := List.append_of_mem hr
  have hoff := h.append_right.1
  rw [hoff, List.length_append, List.length_cons]
  omega

theorem Numbered.pairwise (h : Numbered b log) : log.Pairwise fun r r' => r.srOffset < r'.srOffset := by
  induction log generalizing b with
  | nil => exact List.Pairwise.nil
  | cons r rs ih =>
    refine List.pairwise_cons.2 ⟨fun r' hr' => ?_, ih h.2⟩
    have hlow := (Numbered.bounds h.2 hr').1
    rw [h.1]
    omega

theorem Numbered.take (h : Numbered b log) (k : Nat) : Numbered b (log.take k) := by
  induction log generalizing b k with
  | nil => simpa using h
  | cons r rs ih =>
    cases k with
    | zero => trivial
    | succ k => exact ⟨h.1, ih h.2 k⟩

theorem Numbered.drop (h : Numbered 0 log) {k : Nat} (hk : k ≤ log.length) : Numbered k (log.drop k) := by
  rw [← List.take_append_drop k log] at h
  have hdrop := h.append_right
  rwa [List.length_take_of_le hk, zero_add] at hdrop

theorem Numbered.next (h : Numbered b log) :
    (log.getLast?.map fun r => r.srOffset + 1).getD b = b + log.length := by
  rcases List.eq_nil_or_concat log with rfl | ⟨rs, r, rfl⟩
  · simp
  · rw [List.concat_eq_append] at h ⊢
    have hoff := h.append_right.1
    rw [List.getLast?_append]
    simp [hoff]
    omega

theorem takeAt_of_le (h : Numbered b log) (hb : from_ ≤ b) (n limit : Int) :
    takeAt from_ n log limit = log.take (min n.toNat (limit - b).toNat) := by
  induction log generalizing b n with
  | nil => simp [takeAt]
  | cons r rs ih =>
    unfold takeAt
    rw [h.1, if_neg (by omega)]
    split_ifs with h1 h2
    · rw [show (limit - b).toNat = 0 by omega, Nat.min_zero, List.take_zero]
    · rw [show n.toNat = 0 by omega, Nat.zero_min, List.take_zero]
    · rw [ih h.2 (by omega) (n - 1), show min n.toNat (limit - b).toNat =
        min (n - 1).toNat (limit - (b + 1)).toNat + 1 by omega, List.take_succ_cons]

/-- **A slice of a log of consecutive offsets** is what is between two places. -/
theorem takeAt_eq (h : Numbered b log) (hb : b ≤ from_) (n limit : Int) : takeAt from_ n log limit =
    (log.drop (from_ - b).toNat).take (min n.toNat (limit - from_).toNat) := by
  induction log generalizing b with
  | nil => simp [takeAt]
  | cons r rs ih =>
    by_cases hlt : b < from_
    · unfold takeAt
      rw [h.1, if_pos hlt, ih h.2 (by omega), show (from_ - b).toNat = (from_ - (b + 1)).toNat + 1 by omega,
        List.drop_succ_cons]
    · have hbf : from_ = b := le_antisymm (not_lt.1 hlt) hb
      rw [hbf, takeAt_of_le h le_rfl n limit, sub_self]
      rfl

/-! ## The consumer -/

variable {topic part} {s s' : Reader} {c' : MockCluster}

/-- What the code does not look after: a stamp that is used again when its transaction
    has ended, and a record of an open transaction in what a fetch may return. -/
def Guarded (topic : String) (part : Int) (s : Reader) : Event → Prop
  | .appendToPartition topic' part' _ _ _ _ stamp => topic' = topic → part' = part → fenced s.cluster stamp = false →
    ∀ st ∈ stamp, st ∉ s.cluster.mcCommittedStamps ∧ st ∉ s.cluster.mcAbortedStamps
  | .abortTxn tid => ∀ r ∈ (seen s.cluster topic part).mpLog, r.srProducer = some (currentStamp s.cluster tid) →
    fateOf s.cluster.mcCommittedStamps s.cluster.mcAbortedStamps r ≠ .committed
  | .fetch maxN => ∀ r ∈ (seen s.cluster topic part).mpLog, s.position ≤ r.srOffset →
    r.srOffset < s.position + maxN → r.srOffset < (seen s.cluster topic part).mpLastStableOffset →
    fateOf s.cluster.mcCommittedStamps s.cluster.mcAbortedStamps r ≠ .opened
  | _ => True

/-- The consumer has taken the first `k` records: their fates are settled, and it has
    got those it should. -/
structure Taken (fate : StoredRecord → Fate) (log : List StoredRecord) (s : Reader) (k : Nat) : Prop where
  position : s.position = k
  le : k ≤ log.length
  received : s.received = (log.take k).filter fun r => (fate r).deliverable
  settled : ∀ r ∈ log.take k, fate r ≠ .opened

/-- The offsets are the places in the log, the stamps say what has become of each
    record, and above the last stable offset all transactions are open. -/
structure Exact (p : MockPartition) (fate : StoredRecord → Fate) (s : Reader) : Prop where
  numbered : Numbered 0 p.mpLog
  hwm : p.mpHwm = p.mpLog.length
  stable : p.mpLastStableOffset ≤ p.mpHwm
  fates : s.fates = p.mpLog.map fate
  unstable : ∀ r ∈ p.mpLog, p.mpLastStableOffset ≤ r.srOffset → fate r = .opened
  taken : ∃ k, Taken fate p.mpLog s k

/-- What the stamps of a cluster say. -/
def MockCluster.fate (c : MockCluster) : StoredRecord → Fate := fateOf c.mcCommittedStamps c.mcAbortedStamps

theorem Taken.congr {fate fate' : StoredRecord → Fate} {k : Nat} {rs : List StoredRecord} (h : Taken fate log s k)
    (hfate : ∀ r ∈ log.take k, fate' r = fate r) (hpos : s'.position = s.position)
    (hrec : s'.received = s.received) : Taken fate' (log ++ rs) s' k := by
  have htake : (log ++ rs).take k = log.take k := List.take_append_of_le_length h.le
  refine ⟨hpos.trans h.position, h.le.trans (by rw [List.length_append]; omega), ?_, ?_⟩
  · rw [htake, hrec, h.received]
    exact List.filter_congr fun r hr => by rw [hfate r hr]
  · intro r hr
    rw [htake] at hr
    rw [hfate r hr]
    exact h.settled r hr

variable {p : MockPartition} {fate : StoredRecord → Fate}

theorem Exact.append (h : Exact p fate s) (mk : Option Bytes)
    (v : Bytes) (ts : Int) (hdrs : List (String × Bytes)) {stamp : Option ProducerStamp}
    (hfate : ∀ off, fate ⟨off, mk, v, ts, hdrs, stamp⟩ = if stamp = none then .plain else .opened) :
    Exact (p.push mk v ts hdrs stamp) fate
      { s with cluster := c', fates := s.fates ++ [if stamp = none then .plain else .opened] } where
  numbered := h.numbered.snoc (by rw [h.hwm, zero_add])
  hwm := by
    unfold MockPartition.push
    rw [h.hwm, List.length_append, List.length_singleton]
    rfl
  stable := by
    have hle := h.stable
    unfold MockPartition.push
    dsimp only
    split_ifs
    · exact le_rfl
    · omega
  fates := by
    unfold MockPartition.push
    rw [List.map_append, h.fates, List.map_singleton, hfate]
  unstable := by
    intro r hr hlow
    unfold MockPartition.push at hr hlow
    dsimp only at hr hlow
    rcases List.mem_append.1 hr with hr | hr
    · have hlt := (h.numbered.bounds hr).2
      have hhwm := h.hwm
      split_ifs at hlow
      · omega
      · exact h.unstable r hr hlow
    · obtain rfl := List.mem_singleton.1 hr
      rw [hfate]
      split_ifs at hlow ⊢
      · dsimp only at hlow
        omega
      · rfl
  taken := by
    obtain ⟨k, hk⟩ := h.taken
    exact ⟨k, hk.congr (fun _ _ => rfl) rfl rfl⟩

theorem Exact.end {fate fate' : StoredRecord → Fate} {f : Fate} {tid : TxnId} (h : Exact p fate s)
    (hst : st.psTxnId = tid) (hfate : ∀ r ∈ p.mpLog, fate' r =
      if fate r = .opened ∧ r.srProducer = some st then f else fate r) :
    Exact (p.advanceStable tid) fate'
      { s with cluster := c', fates := p.mpLog.map fun r =>
        if fate r = .opened ∧ r.srProducer = some st then f else fate r } := by
  have hlog : (p.advanceStable tid).mpLog = p.mpLog := by
    unfold MockPartition.advanceStable
    split_ifs
    · rfl
    · rfl
  have hhwm : (p.advanceStable tid).mpHwm = p.mpHwm := by
    unfold MockPartition.advanceStable
    split_ifs
    · rfl
    · rfl
  refine ⟨?_, ?_, ?_, ?_, ?_, ?_⟩
  · rw [hlog]
    exact h.numbered
  · rw [hhwm, hlog]
    exact h.hwm
  · unfold MockPartition.advanceStable
    split_ifs
    · exact le_rfl
    · exact h.stable
  · rw [hlog]
    exact (List.map_congr_left hfate).symm
  · intro r hr hlow
    rw [hlog] at hr
    unfold MockPartition.advanceStable at hlow
    split_ifs at hlow with htouched
    · have hlt := (h.numbered.bounds hr).2
      have hh := h.hwm
      dsimp only at hlow
      omega
    · rw [hfate r hr, if_neg, h.unstable r hr hlow]
      rintro ⟨-, hp⟩
      refine htouched (List.any_eq_true.2 ⟨r, hr, ?_⟩)
      rw [hp, Option.any_some, decide_eq_true hst]
  · obtain ⟨k, hk⟩ := h.taken
    refine ⟨k, ?_⟩
    rw [hlog, ← List.append_nil p.mpLog]
    refine hk.congr (fun r hr => ?_) rfl rfl
    rw [hfate r (List.mem_of_mem_take hr), if_neg]
    exact fun ho => hk.settled r hr ho.1

/-- **A fetch takes over a slice**, if none of its records is of an open transaction. -/
theorem Exact.fetch {maxN : Int} (h : Exact p fate s)
    (hg : ∀ r ∈ p.mpLog, s.position ≤ r.srOffset → r.srOffset < s.position + maxN →
      r.srOffset < p.mpLastStableOffset → fate r ≠ .opened) :
    Exact p fate { s with
      position := (((takeAt s.position maxN p.mpLog p.mpLastStableOffset).getLast?.map
        fun r => r.srOffset + 1).getD s.position)
      received := s.received ++ (takeAt s.position maxN p.mpLog p.mpLastStableOffset).filter
        fun r => (fate r).deliverable } := by
  obtain ⟨k, hk⟩ := h.taken
  obtain ⟨m, hm⟩ : ∃ m, m = min maxN.toNat (p.mpLastStableOffset - k).toNat := ⟨_, rfl⟩
  have hslice : takeAt s.position maxN p.mpLog p.mpLastStableOffset = (p.mpLog.drop k).take m := by
    rw [hk.position, takeAt_eq h.numbered (Int.natCast_nonneg k), Int.sub_zero, Int.toNat_natCast, hm]
  have hnum : Numbered k ((p.mpLog.drop k).take m) := (h.numbered.drop hk.le).take m
  have htake : p.mpLog.take (k + ((p.mpLog.drop k).take m).length) =
      p.mpLog.take k ++ (p.mpLog.drop k).take m := by
    rw [List.take_add]
    exact congrArg _ (List.take_eq_take_iff.2 (by rw [List.length_take]; omega))
  refine ⟨h.numbered, h.hwm, h.stable, h.fates, h.unstable, k + ((p.mpLog.drop k).take m).length, ?_, ?_, ?_, ?_⟩
  · rw [hslice, hk.position, hnum.next]
    exact (Int.natCast_add _ _).symm
  · rw [List.length_take, List.length_drop]
    have hle := hk.le
    omega
  · rw [hslice, htake, List.filter_append, hk.received]
  · intro r hr
    rw [htake] at hr
    rcases List.mem_append.1 hr with hr | hr
    · exact hk.settled r hr
    · have hb := hnum.bounds hr
      rw [List.length_take] at hb
      refine hg r (List.mem_of_mem_drop (List.mem_of_mem_take hr)) ?_ ?_ ?_
      · rw [hk.position]
        exact hb.1
      · rw [hk.position]
        omega
      · omega

/-! ## Steps -/

theorem seen_eq (h : partition c' topic part = partition s.cluster topic part) :
    seen c' topic part = seen s.cluster topic part := by
  unfold seen
  rw [h]

theorem Exact.keep (h : Exact (seen s.cluster topic part) s.cluster.fate s)
    (hlog : (seen c' topic part).mpLog = (seen s.cluster topic part).mpLog)
    (hhwm : (seen c' topic part).mpHwm = (seen s.cluster topic part).mpHwm)
    (hlso : (seen c' topic part).mpLastStableOffset = (seen s.cluster topic part).mpLastStableOffset)
    (hfate : c'.fate = s.cluster.fate) :
    Exact (seen c' topic part) c'.fate { s with cluster := c' } := by
  rw [hfate]
  constructor
  · rw [hlog]
    exact h.numbered
  · rw [hlog, hhwm]
    exact h.hwm
  · rw [hlso, hhwm]
    exact h.stable
  · rw [hlog]
    exact h.fates
  · rw [hlog, hlso]
    exact h.unstable
  · rw [hlog]
    obtain ⟨k, hk⟩ := h.taken
    exact ⟨k, hk.position, hk.le, hk.received, hk.settled⟩

theorem Exact.createTopic (h : Exact (seen s.cluster topic part) s.cluster.fate s) {topic' : String} {n : Int}
    (hc : createTopic s.cluster topic' n = .ok c') :
    Exact (seen c' topic part) c'.fate { s with cluster := c' } := by
  have hfate : c'.fate = s.cluster.fate := by
    unfold MockCluster.fate
    rw [(createTopic_stamps hc).1, (createTopic_stamps hc).2]
  rcases partition_createTopic hc topic part with hp | ⟨hnone, b, hp⟩
  · exact h.keep (by rw [seen_eq hp]) (by rw [seen_eq hp]) (by rw [seen_eq hp]) hfate
  · unfold seen at h
    rw [hnone] at h
    refine @Exact.keep topic part _ _ (by unfold seen; rwa [hnone]) ?_ ?_ ?_ hfate
    all_goals
      unfold seen
      rw [hnone, hp]
      rfl

/-- Where an operation fails the cluster is as before. -/
theorem Exact.ok (h : Exact (seen s.cluster topic part) s.cluster.fate s) {x : Except String MockCluster}
    (hx : ∀ c', x = .ok c' → Exact (seen c' topic part) c'.fate { s with cluster := c' }) :
    Exact (seen (x.toOption.getD s.cluster) topic part) (x.toOption.getD s.cluster).fate
      { s with cluster := x.toOption.getD s.cluster } := by
  cases x with
  | error => exact h
  | ok c' => exact hx c' rfl

theorem Exact.appendToPartition (h : Exact (seen s.cluster topic part) s.cluster.fate s) {topic' : String}
    {part' : Int} {mk : Option Bytes} {v : Bytes} {ts : Int} {hdrs : List (String × Bytes)}
    {stamp : Option ProducerStamp}
    (hg : Guarded topic part s (.appendToPartition topic' part' mk v ts hdrs stamp)) {s' : Reader}
    (hs' : step topic part s (.appendToPartition topic' part' mk v ts hdrs stamp) = some s') :
    Exact (seen s'.cluster topic part) s'.cluster.fate s' := by
  cases hs'
  dsimp only [operate, fatesAfter]
  rcases appendToPartition_cases s.cluster topic' part' mk v ts hdrs stamp with ⟨err, he⟩ | ⟨hf, p, hp, he⟩
  · rw [he]
    exact h
  · rw [he]
    dsimp only
    by_cases hsame : topic = topic' ∧ part = part'
    · obtain ⟨rfl, rfl⟩ := hsame
      have hseen : seen (modifyPartition s.cluster topic part fun p => p.push mk v ts hdrs stamp) topic part =
          (seen s.cluster topic part).push mk v ts hdrs stamp := by
        unfold seen
        rw [partition_modify, if_pos ⟨rfl, rfl⟩, hp]
        rfl
      rw [if_pos ⟨rfl, rfl⟩, hseen]
      refine h.append mk v ts hdrs fun off => ?_
      unfold MockCluster.fate fateOf
      cases stamp with
      | none => rfl
      | some st =>
        obtain ⟨hc, ha⟩ := hg rfl rfl hf st rfl
        exact (if_neg ha).trans (if_neg hc)
    · have hother : partition (modifyPartition s.cluster topic' part' fun p => p.push mk v ts hdrs stamp)
          topic part = partition s.cluster topic part := by
        rw [partition_modify, if_neg hsame]
      rw [if_neg hsame]
      exact h.keep (by rw [seen_eq hother]) (by rw [seen_eq hother]) (by rw [seen_eq hother]) rfl

theorem seen_advanceStable (c : MockCluster) (tid topic : String) (part : Int) :
    seen { c with mcTopics := advanceStable tid c.mcTopics } topic part =
      (seen c topic part).advanceStable tid := by
  unfold seen
  rw [partition_advanceStable]
  cases partition c topic part with
  | none => rfl
  | some p => rfl

theorem Exact.commitTxn (h : Exact (seen s.cluster topic part) s.cluster.fate s) {tid : TxnId} {s' : Reader}
    (hs' : step topic part s (.commitTxn tid) = some s') : Exact (seen s'.cluster topic part) s'.cluster.fate s' := by
  cases hs'
  unfold operate fatesAfter
  have hseen : seen (Mock.commitTxn s.cluster tid) topic part = (seen s.cluster topic part).advanceStable tid :=
    seen_advanceStable s.cluster tid topic part
  dsimp only
  rw [hseen, h.fates]
  unfold MockCluster.fate
  rw [settle_map]
  exact h.end rfl fun r _ => fateOf_insert_committed r

theorem Exact.abortTxn (h : Exact (seen s.cluster topic part) s.cluster.fate s) {tid : TxnId}
    (hg : Guarded topic part s (.abortTxn tid)) {s' : Reader}
    (hs' : step topic part s (.abortTxn tid) = some s') : Exact (seen s'.cluster topic part) s'.cluster.fate s' := by
  cases hs'
  unfold operate fatesAfter
  have hseen : seen (Mock.abortTxn s.cluster tid) topic part = (seen s.cluster topic part).advanceStable tid :=
    seen_advanceStable s.cluster tid topic part
  dsimp only
  rw [hseen, h.fates]
  unfold MockCluster.fate
  rw [settle_map]
  exact h.end rfl fun r hr => fateOf_insert_aborted (hg r hr)

/-- **One step** of the cluster and the consumer. -/
theorem step_exact {e : Event} (h : Exact (seen s.cluster topic part) s.cluster.fate s)
    (hg : Guarded topic part s e) {s' : Reader} (hs' : step topic part s e = some s') :
    Exact (seen s'.cluster topic part) s'.cluster.fate s' := by
  cases e with
  | appendToPartition topic' part' mk v ts hdrs stamp => exact h.appendToPartition hg hs'
  | commitTxn tid => exact h.commitTxn hs'
  | abortTxn tid => exact h.abortTxn hg hs'
  | createTopic topic' n =>
    cases hs'
    exact h.ok fun c' hc => h.createTopic hc
  | ensureTopicForAppend topic' =>
    cases hs'
    refine h.ok fun c' hc => ?_
    rcases ensureTopicForAppend_ok hc with rfl | ⟨n, hc⟩
    · exact h
    · exact h.createTopic hc
  | fetch maxN =>
    cases hs'
    unfold Reader.fetch fetchSlice
    cases hp : partition s.cluster topic part with
    | none => exact h
    | some p =>
      have hseen : seen s.cluster topic part = p := by
        unfold seen
        rw [hp]
        rfl
      have hfetch := h.fetch hg
      rw [hseen] at hfetch
      dsimp only
      rw [visibleAt_eq, hseen]
      exact hfetch
  | setAutoCreateTopics m | markBrokerDown b | markBrokerUp b | beginTxn tid | sendOffsetsToTxn tid grp xs =>
    cases hs'
    exact h.keep rfl rfl rfl rfl

theorem exact_init (topic : String) (part : Int) (brokers : Int) :
    Exact (seen (Reader.init brokers).cluster topic part) (Reader.init brokers).cluster.fate (Reader.init brokers) where
  numbered := trivial
  hwm := rfl
  stable := le_rfl
  fates := rfl
  unstable _ hr := absurd hr List.not_mem_nil
  taken := ⟨0, rfl, le_rfl, rfl, fun _ hr => absurd hr List.not_mem_nil⟩

/-! ## Runs -/

/-- What a consumer of committed records relies on. -/
structure ReadCommitted (topic : String) (part : Int) (s : Reader) : Prop where
  /-- It has received the first of the committed and the plain records. -/
  beginning : s.received <+: s.deliverables topic part
  once : s.received.Pairwise fun r r' => r.srOffset < r'.srOffset
  /-- Each of them was sent outside a transaction, or the transaction was committed. -/
  deliverable : ∀ r ∈ s.received, ∃ f, (r, f) ∈ (seen s.cluster topic part).mpLog.zip s.fates ∧
    (f = .plain ∨ f = .committed)
  /-- When all transactions have ended, and a fetch does not get any further, it has
      received all. -/
  complete : ∀ n rs, 0 < n → fetchSlice s.cluster topic part s.position n true = .ok (rs, s.position) →
    Fate.opened ∉ s.fates → s.received = s.deliverables topic part

theorem zip_map_filter (fate : StoredRecord → Fate) (p : Fate → Bool) (log : List StoredRecord) :
    ((log.zip (log.map fate)).filter fun e => p e.2).map Prod.fst = log.filter fun r => p (fate r) := by
  induction log with
  | nil => rfl
  | cons r rs ih =>
    rw [List.map_cons, List.zip_cons_cons, List.filter_cons, List.filter_cons]
    split_ifs
    · rw [List.map_cons, ih]
    · exact ih

theorem mem_zip_map (fate : StoredRecord → Fate) (hr : r ∈ log) : (r, fate r) ∈ log.zip (log.map fate) := by
  induction log with
  | nil => cases hr
  | cons r' rs ih =>
    rw [List.map_cons, List.zip_cons_cons]
    rcases List.mem_cons.1 hr with rfl | hr
    · exact List.mem_cons_self
    · exact List.mem_cons_of_mem _ (ih hr)

theorem deliverable_cases {f : Fate} (h : f.deliverable = true) : f = .plain ∨ f = .committed := by
  cases f with
  | plain => exact Or.inl rfl
  | committed => exact Or.inr rfl
  | opened | aborted => cases h

/-- When a fetch does not get any further, the consumer has taken the whole log or the
    next record is of an open transaction. -/
theorem Taken.caught_up {k : Nat} {n : Int} (h : Exact p fate s)
    (hk : Taken fate p.mpLog s k) (hn : 0 < n)
    (hnext : ((takeAt s.position n p.mpLog p.mpLastStableOffset).getLast?.map
      fun r => r.srOffset + 1).getD s.position = s.position) (hopen : Fate.opened ∉ s.fates) :
    p.mpLog.take k = p.mpLog := by
  have hnum : Numbered k (p.mpLog.drop k) := h.numbered.drop hk.le
  rw [hk.position, takeAt_eq h.numbered (Int.natCast_nonneg k), Int.sub_zero, Int.toNat_natCast,
    (hnum.take _).next] at hnext
  cases hdrop : p.mpLog.drop k with
  | nil => exact List.take_of_length_le (List.drop_eq_nil_iff.1 hdrop)
  | cons r rs =>
    rw [hdrop] at hnum hnext
    have hr : r ∈ p.mpLog := List.mem_of_mem_drop (by rw [hdrop]; exact List.mem_cons_self)
    have hlow : p.mpLastStableOffset ≤ r.srOffset := by
      rw [List.length_take, List.length_cons] at hnext
      rw [hnum.1]
      omega
    refine absurd ?_ hopen
    rw [h.fates, ← h.unstable r hr hlow]
    exact List.mem_map_of_mem hr

theorem Exact.readCommitted (h : Exact (seen s.cluster topic part) s.cluster.fate s) : ReadCommitted topic part s := by
  obtain ⟨k, hk⟩ := h.taken
  have hdel : s.deliverables topic part =
      (seen s.cluster topic part).mpLog.filter fun r => (s.cluster.fate r).deliverable := by
    unfold Reader.deliverables
    rw [h.fates, zip_map_filter]
  constructor
  · rw [hdel, hk.received]
    exact (List.take_prefix k _).filter _
  · rw [hk.received]
    exact ((h.numbered.take k).pairwise).filter _
  · intro r hr
    rw [hk.received] at hr
    obtain ⟨hmem, hfate⟩ := List.mem_filter.1 hr
    refine ⟨s.cluster.fate r, ?_, deliverable_cases hfate⟩
    rw [h.fates]
    exact mem_zip_map _ (List.mem_of_mem_take hmem)
  · intro n rs hn hfetch hopen
    unfold fetchSlice at hfetch
    cases hp : partition s.cluster topic part with
    | none =>
      rw [hp] at hfetch
      cases hfetch
    | some p =>
      have hseen : seen s.cluster topic part = p := by
        unfold seen
        rw [hp]
        rfl
      rw [hseen] at h hk hdel
      rw [hp] at hfetch
      have hnext := congrArg Prod.snd (Except.ok.inj hfetch)
      rw [hdel, hk.received, hk.caught_up h hn hnext hopen]

/-- **A consumer of committed records** gets them in their order and none twice, gets no
    others, and has all of them once it has caught up: along every run in which no fetch
    may return a record of an open transaction, and no stamp is used again when its
    transaction has ended. -/
theorem read_committed_exact {brokers : Int} {es : List Event} {s : Reader}
    (hrun : run (step topic part) (Reader.init brokers) es = some s)
    (hg : Along (step topic part) (Guarded topic part) (Reader.init brokers) es) : ReadCommitted topic part s := by
  have h : Exact (seen s.cluster topic part) s.cluster.fate s :=
    run_invariant (I := fun s => Exact (seen s.cluster topic part) s.cluster.fate s)
      (fun _ _ _ h hg hs' => step_exact h hg hs') (exact_init topic part brokers) hg hrun
  exact h.readCommitted

instance decidableGuarded (s : Reader) (e : Event) : Decidable (Guarded topic part s e) := by
  cases e <;> unfold Guarded <;> infer_instance

/-- A record of a transaction, and one sent outside, to the first partition. -/
def inTxn (v : Bytes) : Event := .appendToPartition "t" 0 none v 0 [] (some ⟨"a", 0⟩)

def outside (v : Bytes) : Event := .appendToPartition "t" 0 none v 0 [] none

/-- A plain record is read before the transaction begins. -/
def readBefore : List Event :=
  [.createTopic "t" 1, outside [7], .beginTxn "a", inTxn [8], .fetch 10, .commitTxn "a", .fetch 10]

/-- A plain record is sent while the transaction is open. -/
def sentMeanwhile : List Event :=
  [.createTopic "t" 1, .beginTxn "a", inTxn [8], outside [7], .fetch 10, .commitTxn "a", .fetch 10]

/-- The consumer gets the plain record and, after the commit, that of the transaction. -/
theorem read_committed_exact_both :
    (run (step "t" 0) (Reader.init 1) readBefore).map (fun s => s.received.map StoredRecord.srValue) =
      some [[7], [8]] ∧
    ∀ s, run (step "t" 0) (Reader.init 1) readBefore = some s → ReadCommitted "t" 0 s :=
  ⟨by decide, fun _ hrun => read_committed_exact hrun (by decide)⟩

/-- **A record of a committed transaction that the consumer never gets**: the plain record
    has moved the last stable offset past it while its transaction was open. -/
theorem skipped_record : ∃ s, run (step "t" 0) (Reader.init 1) sentMeanwhile = some s ∧
    s.received.map StoredRecord.srValue = [[7]] ∧ s.fates = [.committed, .plain] ∧ ¬ ReadCommitted "t" 0 s := by
  have hview : (run (step "t" 0) (Reader.init 1) sentMeanwhile).map (fun s =>
      (s.received.map StoredRecord.srValue, s.fates, s.received.isPrefixOf (s.deliverables "t" 0))) =
        some ([[7]], [.committed, .plain], false) := by
    decide
  obtain ⟨s, hrun, hs⟩ := Option.map_eq_some_iff.1 hview
  simp only [Prod.mk.injEq] at hs
  refine ⟨s, hrun, hs.1, hs.2.1, fun h => ?_⟩
  rw [List.isPrefixOf_iff_prefix.2 h.beginning] at hs
  exact absurd hs.2.2 (by decide)

end Wireform.Kafka.Mock

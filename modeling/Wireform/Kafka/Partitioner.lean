/-
  The partition of a record (`Kafka.Client.Producer`): `selectPartition`, its
  caches and the partitioners behind them.

  * `selectPartition` looks into the sticky map first, whatever the partitioner
    and the key are, then into the cache of partition counts and only then
    asks the partitioner;
  * `hashed_kept`: with `hashPartitioner` no entry of the sticky map is ever
    written, and every keyed record keeps its partition;
  * `keyed_kept_iff`: with `defaultPartitioner` an unkeyed record writes one,
    and from then on every record of the topic goes to partition 0.
-/
import Mathlib.Data.Nat.Basic
import Wireform.AssocMap
import Wireform.Kafka.Murmur2

namespace Wireform.Kafka

variable {τ : Type} [LinearOrder τ]

/-- The number of partitions of a topic: a topic listed without partitions has
    no usable count. -/
abbrev PartitionCount := {n : Int32 // 0 < n}

/-- The maps that the choice of a partition reads and writes. -/
structure Producer (τ : Type) where
  stickyPartitions : AssocMap τ Int32
  roundRobinCounters : AssocMap τ Int32
  partitionCount : AssocMap τ PartitionCount

/-- The maps of a new producer. -/
def Producer.init : Producer τ := ⟨[], [], []⟩

abbrev Partitioner (τ : Type) :=
  τ → Option Key → PartitionCount → Producer τ → Int32 × Producer τ

/-! ## Partitioners -/

def getStickyPartition (topic : τ) (partCount : PartitionCount) (p : Producer τ) :
    Int32 × Producer τ :=
  match AssocMap.lookup topic p.stickyPartitions with
  | some partition => (partition, p)
  | none =>
    let counter := (AssocMap.lookup topic p.roundRobinCounters).getD 0
    let partition := mod counter partCount
    (partition, { p with
      roundRobinCounters := AssocMap.insert topic (counter + 1) p.roundRobinCounters
      stickyPartitions := AssocMap.insert topic partition p.stickyPartitions })

def defaultPartitioner : Partitioner τ := fun topic keyM partitionCount p =>
  match keyM with
  | some key => (partitionForKey key partitionCount, p)
  | none => getStickyPartition topic partitionCount p

def hashPartitioner : Partitioner τ := fun _ keyM partitionCount p =>
  match keyM with
  | some key => (partitionForKey key partitionCount, p)
  | none => (0, p)

/-! ## Selection -/

/-- The cold path.  `found` is what the metadata say about the topic's
    partitions when the cache of counts does not know them, the wait for
    `max.block.ms` included. -/
def selectPartitionSlow (partitioner : Partitioner τ) (topic : τ) (keyM : Option Key)
    (found : Option PartitionCount) (p : Producer τ) : Int32 × Producer τ :=
  match AssocMap.lookup topic p.partitionCount with
  | some n => partitioner topic keyM n p
  | none =>
    match found with
    | some n => partitioner topic keyM n
        { p with partitionCount := AssocMap.insert topic n p.partitionCount }
    | none => (0, p)

attribute [grind =] selectPartitionSlow

def selectPartition (partitioner : Partitioner τ) (topic : τ) (keyM : Option Key)
    (found : Option PartitionCount) (p : Producer τ) : Int32 × Producer τ :=
  match AssocMap.lookup topic p.stickyPartitions with
  | some partition => (partition, p)
  | none => selectPartitionSlow partitioner topic keyM found p

attribute [grind =] selectPartition

/-- One send: the record's topic and key, and what the metadata know of the
    topic at that time. -/
structure Send (τ : Type) where
  topic : τ
  key : Option Key
  found : Option PartitionCount

/-- The partitions of a sequence of sends. -/
def sentTo (partitioner : Partitioner τ) : Producer τ → List (Send τ) → List Int32
  | _, [] => []
  | p, s :: ss =>
    let (partition, p') := selectPartition partitioner s.topic s.key s.found p
    partition :: sentTo partitioner p' ss

attribute [grind =] sentTo

/-- The topic `t` has `n` partitions throughout. -/
def Steady (t : τ) (n : PartitionCount) (sends : List (Send τ)) : Prop :=
  ∀ s ∈ sends, s.topic = t → s.found = some n

/-- A record of the topic `t` is in the partition of its key. -/
def Kept (t : τ) (n : PartitionCount) (s : Send τ) (partition : Int32) : Prop :=
  s.topic = t → ∀ k, s.key = some k → partition = partitionForKey k n

/-! ## What a send leaves unchanged -/

/-- The entries of the topic `t` in the maps. -/
structure Entries (t : τ) (n : PartitionCount) (o : Option Int32) (p : Producer τ) : Prop where
  sticky : AssocMap.lookup t p.stickyPartitions = o
  counter : o = none → AssocMap.lookup t p.roundRobinCounters = none
  count : AssocMap.lookup t p.partitionCount = none ∨
    AssocMap.lookup t p.partitionCount = some n

theorem Entries.init (t : τ) (n : PartitionCount) : Entries t n none Producer.init :=
  ⟨rfl, fun _ => rfl, Or.inl rfl⟩

theorem Entries.getStickyPartition {t t' : τ} {n m : PartitionCount} {o : Option Int32}
    {p : Producer τ} (h : Entries t n o p) (hne : t' ≠ t) :
    Entries t n o (getStickyPartition t' m p).2 := by
  unfold Kafka.getStickyPartition
  split
  · exact h
  · refine ⟨?_, fun ho => ?_, h.count⟩
    · simpa [Ne.symm hne] using h.sticky
    · simpa [Ne.symm hne] using h.counter ho

theorem Entries.defaultPartitioner {t t' : τ} {n m : PartitionCount} {o : Option Int32}
    {p : Producer τ} (h : Entries t n o p) (hne : t' ≠ t) (keyM : Option Key) :
    Entries t n o (defaultPartitioner t' keyM m p).2 := by
  cases keyM with
  | some key => exact h
  | none => exact h.getStickyPartition hne

variable {p : Producer τ} {n : PartitionCount}

theorem Entries.count_insert {t t' : τ} {n m : PartitionCount} {o : Option Int32}
    (h : Entries t n o p) (hm : t' = t → m = n) :
    Entries t n o { p with partitionCount := AssocMap.insert t' m p.partitionCount } := by
  refine ⟨h.sticky, h.counter, ?_⟩
  simp only [AssocMap.lookup_insert]
  split
  · rename_i ht
    rw [hm ht.symm]
    exact Or.inr rfl
  · exact h.count

/-- A send to another topic leaves the entries of `t` alone. -/
theorem Entries.other {t t' : τ} {o : Option Int32}
    (h : Entries t n o p) (hne : t' ≠ t) (keyM : Option Key) (found : Option PartitionCount) :
    Entries t n o (selectPartition Kafka.defaultPartitioner t' keyM found p).2 := by
  unfold selectPartition
  split
  · exact h
  · unfold selectPartitionSlow
    split
    · exact h.defaultPartitioner hne keyM
    · split
      · exact (h.count_insert fun he => absurd he hne).defaultPartitioner hne keyM
      · exact h

/-- With an entry in the sticky map, that partition is the answer. -/
theorem selectPartition_sticky {t : τ} {q : Int32}
    (h : Entries t n (some q) p) (partitioner : Partitioner τ) (keyM : Option Key)
    (found : Option PartitionCount) :
    selectPartition partitioner t keyM found p = (q, p) := by
  rw [selectPartition, h.sticky]

/-- Without one, the partitioner is asked with the topic's count. -/
theorem selectPartition_asks {t : τ}
    (h : Entries t n none p) (partitioner : Partitioner τ) (keyM : Option Key) :
    ∃ p', Entries t n none p' ∧
      selectPartition partitioner t keyM (some n) p = partitioner t keyM n p' := by
  rw [selectPartition, h.sticky]
  unfold selectPartitionSlow
  rcases h.count with hc | hc
  · exact ⟨_, h.count_insert fun _ => rfl, by rw [hc]⟩
  · exact ⟨p, h, by rw [hc]⟩

/-- The first unkeyed record of a topic: its counter is still `0`, and so is the
    partition written into the sticky map. -/
theorem Entries.first_unkeyed {t : τ}
    (h : Entries t n none p) :
    Entries t n (some 0) (Kafka.getStickyPartition t n p).2 := by
  have hmod : mod 0 n = 0 := by simp [mod]
  unfold Kafka.getStickyPartition
  rw [h.sticky, h.counter rfl]
  refine ⟨?_, fun ho => absurd ho (Option.some_ne_none 0), h.count⟩
  simp [hmod]

/-! ## Whole runs -/

theorem hash_kept {t : τ} {n : PartitionCount} : ∀ {sends : List (Send τ)} {p : Producer τ},
    p.stickyPartitions = [] → Entries t n none p → Steady t n sends →
      List.Forall₂ (Kept t n) sends (sentTo hashPartitioner p sends)
  | [], _, _, _, _ => List.Forall₂.nil
  | s :: ss, p, hempty, h, hs => by
    obtain ⟨hfound, hss⟩ := List.forall_mem_cons.1 hs
    rw [sentTo, List.forall₂_cons]
    constructor
    · intro ht k hk
      obtain ⟨p', -, hp'⟩ := selectPartition_asks h hashPartitioner s.key
      rw [ht, hfound ht, hp', hk]
      rfl
    · have hstep : Entries t n none (selectPartition hashPartitioner s.topic s.key s.found p).2 ∧
          (selectPartition hashPartitioner s.topic s.key s.found p).2.stickyPartitions = [] := by
        rw [selectPartition, hempty]
        unfold selectPartitionSlow
        cases AssocMap.lookup s.topic p.partitionCount with
        | some m => cases s.key <;> exact ⟨h, hempty⟩
        | none =>
          cases hf : s.found with
          | none => exact ⟨h, hempty⟩
          | some m =>
            have hm : s.topic = t → m = n := fun ht => by simpa [hf] using hfound ht
            cases s.key <;> exact ⟨h.count_insert hm, hempty⟩
      exact hash_kept hstep.2 hstep.1 hss

/-- Once the sticky map has the topic, every record of it goes to that
    partition, keyed or not. -/
theorem kept_sticky_iff {t : τ} {n : PartitionCount} {q : Int32} : ∀ {sends : List (Send τ)}
    {p : Producer τ}, Entries t n (some q) p →
      (List.Forall₂ (Kept t n) sends (sentTo defaultPartitioner p sends) ↔
        ∀ s ∈ sends, s.topic = t → ∀ k, s.key = some k → q = partitionForKey k n)
  | [], _, _ => by simp [sentTo]
  | s :: ss, p, h => by
    rw [sentTo, List.forall₂_cons, List.forall_mem_cons]
    by_cases ht : s.topic = t
    · rw [ht, selectPartition_sticky h, kept_sticky_iff h]
      simp [Kept, ht]
    · rw [kept_sticky_iff (h.other ht s.key s.found)]
      simp [Kept, ht]

/-- The record `s` has no bearing on the later `s'`: it does not bring the topic
    `t` into the sticky map, or `s'` is unkeyed or belongs in partition 0 anyway. -/
def Unaffected (t : τ) (n : PartitionCount) (s s' : Send τ) : Prop :=
  s.topic = t → s.key = none → s'.topic = t → ∀ k, s'.key = some k → partitionForKey k n = 0

theorem kept_iff {t : τ} {n : PartitionCount} : ∀ {sends : List (Send τ)} {p : Producer τ},
    Entries t n none p → Steady t n sends →
      (List.Forall₂ (Kept t n) sends (sentTo defaultPartitioner p sends) ↔
        sends.Pairwise (Unaffected t n))
  | [], _, _, _ => by simp [sentTo]
  | s :: ss, p, h, hs => by
    obtain ⟨hfound, hss⟩ := List.forall_mem_cons.1 hs
    rw [sentTo, List.forall₂_cons, List.pairwise_cons]
    by_cases ht : s.topic = t
    · obtain ⟨p', h', hp'⟩ := selectPartition_asks h defaultPartitioner s.key
      rw [ht, hfound ht, hp']
      cases hk : s.key with
      | some k =>
        have hrest := kept_iff h' hss
        simp only [defaultPartitioner]
        rw [hrest]
        simp [Kept, Unaffected, hk]
      | none =>
        have hrest := @kept_sticky_iff _ _ _ _ _ ss _ h'.first_unkeyed
        simp only [defaultPartitioner]
        rw [hrest]
        -- what comes after is in partition 0, keyed records included
        constructor
        · rintro ⟨-, hall⟩
          have hzero : ∀ s' ∈ ss, Unaffected t n s s' :=
            fun s' hs' _ _ ht' k hk' => (hall s' hs' ht' k hk').symm
          refine ⟨hzero, List.pairwise_iff_forall_sublist.2 fun {a b} hsub => ?_⟩
          have hb : b ∈ ss := hsub.subset (by simp)
          exact fun _ _ => hzero b hb ht hk
        · rintro ⟨hall, -⟩
          refine ⟨fun _ k hk' => ?_, fun s' hs' ht' k hk' => (hall s' hs' ht hk ht' k hk').symm⟩
          rw [hk] at hk'
          cases hk'
    · rw [kept_iff (h.other ht s.key s.found) hss]
      simp [Kept, Unaffected, ht]

/-- **When keyed records keep their partition.**  In a sequence of sends to a
    topic that has `n` partitions throughout, every keyed record is in
    `partitionForKey k n` if and only if none whose partition is another than 0
    was sent after an unkeyed record of the topic. -/
theorem keyed_kept_iff (t : τ) (n : PartitionCount) (sends : List (Send τ))
    (h : Steady t n sends) :
    List.Forall₂ (Kept t n) sends (sentTo defaultPartitioner Producer.init sends) ↔
      sends.Pairwise (Unaffected t n) :=
  kept_iff (Entries.init t n) h

/-- An unkeyed record and then the key "abc", in a topic with two partitions. -/
def unkeyedThenAbc : List (Send ℕ) :=
  [⟨0, none, some ⟨2, by decide⟩⟩, ⟨0, some [97, 98, 99], some ⟨2, by decide⟩⟩]

theorem unkeyedThenAbc_steady : Steady 0 ⟨2, by decide⟩ unkeyedThenAbc := by
  simp [Steady, unkeyedThenAbc]

theorem keyed_kept_iff_abc :
    List.Forall₂ (Kept 0 ⟨2, by decide⟩) unkeyedThenAbc
        (sentTo defaultPartitioner Producer.init unkeyedThenAbc) ↔
      unkeyedThenAbc.Pairwise (Unaffected 0 ⟨2, by decide⟩) :=
  keyed_kept_iff 0 ⟨2, by decide⟩ unkeyedThenAbc unkeyedThenAbc_steady

/-- The key belongs in partition 1 and goes to partition 0. -/
theorem keyed_record_moves :
    ¬ ∀ (t : ℕ) (n : PartitionCount) (sends : List (Send ℕ)), Steady t n sends →
      List.Forall₂ (Kept t n) sends (sentTo defaultPartitioner Producer.init sends) := by
  intro hall
  have h := hall 0 ⟨2, by decide⟩ unkeyedThenAbc unkeyedThenAbc_steady
  have hsent : sentTo defaultPartitioner Producer.init unkeyedThenAbc = [0, 0] := by decide
  rw [hsent, unkeyedThenAbc, List.forall₂_cons, List.forall₂_cons] at h
  have habc : (0 : Int32) = partitionForKey [97, 98, 99] 2 := h.2.1 rfl _ rfl
  revert habc
  decide

end Wireform.Kafka

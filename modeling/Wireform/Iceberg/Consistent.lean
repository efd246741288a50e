/-
  Runs of metadata updates.

  * `Run`: operations from a table without snapshots, with the snapshots that have
    been committed in their order;
  * `Consistent`, `StepSafe`: what holds of every state, and of every step;
  * `Operation.Careful`: a step that does not run into a defect;
  * `Inv`: the invariant of the runs whose steps are careful;
  * `metadata_consistent`: in them every state and every step are as they should be.
-/
import Wireform.Iceberg.Metadata

namespace Wireform.Iceberg

/-! ## Runs -/

/-- A table without snapshots. -/
structure Start (tm : TableMetadata) : Prop where
  snapshots : tm.tmSnapshots = []
  refs : tm.tmSnapshotRefs = []
  current : tm.tmCurrentSnapshotId = none
  number : InRange tm.tmLastSequenceNumber

/-- There is a snapshot of the id. -/
def Exists (tm : TableMetadata) (sid : Int) : Prop := ∃ s ∈ tm.tmSnapshots, s.snapId = sid

/-- Timestamps are 64-bit integers; a branch or tag is created at a snapshot that
    is there. -/
def Operation.Admissible (tm : TableMetadata) : Operation → Prop
  | .append f | .overwrite f | .rowDelta f => InRange f.timestampMs
  | .createBranch _ sid _ _ _ => Exists tm sid
  | .createTag _ sid _ => Exists tm sid
  | _ => True

/-- A run whose steps pass a guard, and what it has committed. -/
inductive Run (guard : TableMetadata → List Snapshot → Operation → Prop) (start : TableMetadata) :
    TableMetadata → List Snapshot → Prop where
  | start (h : Start start) : Run guard start start []
  | step {tm tm' : TableMetadata} {commits : List Snapshot} {op : Operation} {fuel : Nat} (h : Run guard start tm commits)
      (hop : op.Admissible tm) (hguard : guard tm commits op) (hrun : op.run fuel tm = some tm') :
      Run guard start tm' (commits ++ (op.committed tm).toList)

/-! ## What should hold -/

/-- A state as it should be. -/
structure Consistent (tm : TableMetadata) (commits : List Snapshot) : Prop where
  /-- the ids are distinct, and none has been given out twice -/
  distinct : (tm.tmSnapshots.map Snapshot.snapId).Nodup
  fresh : (commits.map Snapshot.snapId).Nodup
  /-- the sequence numbers increase with the commits -/
  numbers : (commits.map Snapshot.snapSequenceNumber).Pairwise (· < ·)
  refs : ∀ e ∈ tm.tmSnapshotRefs, Exists tm e.2.srSnapshotId
  current : ∀ sid, tm.tmCurrentSnapshotId = some sid → Exists tm sid
  main : ∀ r, AssocMap.lookup "main" tm.tmSnapshotRefs = some r → tm.tmCurrentSnapshotId = some r.srSnapshotId
  /-- a parent is older, and the walks along parents end -/
  parents : ∀ s ∈ tm.tmSnapshots, ∀ p, s.snapParentId = some p → p < s.snapId
  ancestors : ∀ sid, ∃ fuel history, Iceberg.ancestors tm fuel sid = some history
  chains : ∀ s ∈ tm.tmSnapshots, ∃ fuel chain, snapshotParentChain tm fuel s = some chain

/-- Something keeps the snapshot from being expired. -/
def Protected (nowMs : Int) (policy : ExpiryPolicy) (tm : TableMetadata) (s : Snapshot) : Prop :=
  (∃ e ∈ tm.tmSnapshotRefs, e.2.srSnapshotId = s.snapId) ∨ tm.tmCurrentSnapshotId = some s.snapId ∨
    s.snapId ∈ policy.epRetainSnapshots ∨ (∀ age, policy.epMaxAgeMs = some age → nowMs - age ≤ s.snapTimestampMs) ∨
    -- no more snapshots than the minimum are as new
    ((tm.tmSnapshots.countP fun t => s.snapTimestampMs ≤ t.snapTimestampMs : Nat) : Int) ≤ policy.epMinSnapshots

/-- A step as it should be. -/
structure StepSafe (tm : TableMetadata) (op : Operation) (tm' : TableMetadata) : Prop where
  /-- a commit changes no reference but `main`, and keeps its settings -/
  otherRefs : ∀ s, op.committed tm = some s → ∀ name, name ≠ "main" →
    AssocMap.lookup name tm'.tmSnapshotRefs = AssocMap.lookup name tm.tmSnapshotRefs
  settings : ∀ s, op.committed tm = some s → ∀ r, AssocMap.lookup "main" tm.tmSnapshotRefs = some r →
    AssocMap.lookup "main" tm'.tmSnapshotRefs = some { r with srSnapshotId := s.snapId }
  /-- an expiry keeps what is protected, and the minimum count -/
  kept : ∀ nowMs policy, op = .expire nowMs policy → ∀ s ∈ tm.tmSnapshots, Protected nowMs policy tm s → s ∈ tm'.tmSnapshots
  minimum : ∀ nowMs policy, op = .expire nowMs policy →
    min policy.epMinSnapshots.toNat tm.tmSnapshots.length ≤ tm'.tmSnapshots.length

/-! ## Careful steps -/

/-- When a commit may be made. -/
structure CommitCareful (tm : TableMetadata) (commits : List Snapshot) : Prop where
  /-- the last snapshot that was committed has not been expired -/
  newest : ∀ s, commits.getLast? = some s → Exists tm s.snapId
  /-- `main` has no retention settings -/
  settings : ∀ r, AssocMap.lookup "main" tm.tmSnapshotRefs = some r → r = plainBranch r.srSnapshotId
  /-- the counters do not overflow -/
  number : tm.tmLastSequenceNumber < 2 ^ 63 - 1
  id : ∀ s ∈ tm.tmSnapshots, s.snapId < 2 ^ 63 - 1

/-- A step that does not run into a defect: a commit as above; `main` is created
    only at the current snapshot, and not moved by a fast-forward; the cutoff of an
    expiry is not below the range. -/
def Operation.Careful (tm : TableMetadata) (commits : List Snapshot) : Operation → Prop
  | .append _ | .overwrite _ | .rowDelta _ => CommitCareful tm commits
  | .createBranch name sid _ _ _ => name = "main" → tm.tmCurrentSnapshotId = some sid
  | .createTag name sid _ => name = "main" → tm.tmCurrentSnapshotId = some sid
  | .fastForward name sid => name = "main" → ∀ r, AssocMap.lookup "main" tm.tmSnapshotRefs = some r →
    ∀ fuel history, Iceberg.ancestors tm fuel sid = some history → r.srSnapshotId ∈ history.map Snapshot.snapId → r.srSnapshotId = sid
  | .expire nowMs policy => ∀ age, policy.epMaxAgeMs = some age → -2 ^ 63 ≤ nowMs - age
  | _ => True

/-! ## The invariant -/

/-- What holds in a run of careful steps. -/
structure Inv (tm : TableMetadata) (commits : List Snapshot) : Prop where
  sub : tm.tmSnapshots.Sublist commits
  ids : commits.Pairwise fun s t => s.snapId < t.snapId
  positive : ∀ s ∈ commits, 1 ≤ s.snapId
  numbers : commits.Pairwise fun s t => s.snapSequenceNumber < t.snapSequenceNumber
  last : ∀ s ∈ commits, s.snapSequenceNumber ≤ tm.tmLastSequenceNumber
  lastRange : InRange tm.tmLastSequenceNumber
  parents : ∀ s ∈ commits, ∀ p, s.snapParentId = some p → p < s.snapId
  times : ∀ s ∈ commits, InRange s.snapTimestampMs
  refs : ∀ e ∈ tm.tmSnapshotRefs, Exists tm e.2.srSnapshotId
  current : ∀ sid, tm.tmCurrentSnapshotId = some sid → Exists tm sid
  main : ∀ r, AssocMap.lookup "main" tm.tmSnapshotRefs = some r → tm.tmCurrentSnapshotId = some r.srSnapshotId
  ascending : tm.tmSnapshotRefs.Ascending

section
variable {tm tm' : TableMetadata} {commits : List Snapshot} {s : Snapshot} {r : SnapshotRef} {name : String}
  {sid : Int}
  {nowMs : Int} {policy : ExpiryPolicy} {fuel : Nat} {op : Operation}

theorem snapshotById_some (h : snapshotById tm sid = some s) : s ∈ tm.tmSnapshots ∧ s.snapId = sid := by
  refine ⟨List.mem_of_find?_eq_some h, ?_⟩
  simpa using List.find?_some h

theorem exists_of_snapshotById (h : snapshotById tm sid = some s) : Exists tm sid :=
  ⟨s, (snapshotById_some h).1, (snapshotById_some h).2⟩

/-- Every id gives way to the next. -/
theorem nextSnapshotId_lt (hid : ∀ s ∈ tm.tmSnapshots, s.snapId < 2 ^ 63 - 1) (hpos : ∀ s ∈ tm.tmSnapshots, 1 ≤ s.snapId)
    (hs : s ∈ tm.tmSnapshots) : s.snapId < nextSnapshotId tm := by
  unfold nextSnapshotId
  cases hids : tm.tmSnapshots.map Snapshot.snapId with
  | nil =>
    rw [List.map_eq_nil_iff] at hids
    rw [hids] at hs
    exact absurd hs List.not_mem_nil
  | cons x xs =>
    have hmax : (x :: xs).max? = some (xs.foldl max x) := rfl
    obtain ⟨hmem, hle⟩ := List.max?_eq_some_iff.1 hmax
    rw [← hids] at hmem hle
    obtain ⟨t, ht, heq⟩ := List.mem_map.1 hmem
    have hlt := hid t ht
    have hge := hpos t ht
    have hs' := hle s.snapId (List.mem_map_of_mem hs)
    dsimp only
    rw [← heq] at hs' ⊢
    rw [addInt_eq (by unfold InRange; omega)]
    omega

theorem nextSnapshotId_pos (hid : ∀ s ∈ tm.tmSnapshots, s.snapId < 2 ^ 63 - 1) (hpos : ∀ s ∈ tm.tmSnapshots, 1 ≤ s.snapId) :
    1 ≤ nextSnapshotId tm := by
  cases hsnaps : tm.tmSnapshots with
  | nil => simp [nextSnapshotId, hsnaps]
  | cons s rest =>
    have hs : s ∈ tm.tmSnapshots := hsnaps ▸ List.mem_cons_self
    have hlt := nextSnapshotId_lt hid hpos hs
    have hge := hpos s hs
    omega

namespace Inv

variable (h : Inv tm commits)
include h

theorem mem (hs : s ∈ tm.tmSnapshots) : s ∈ commits := h.sub.mem hs

/-- The next id is above all that have been given out. -/
theorem next_fresh (hc : CommitCareful tm commits) : ∀ s ∈ commits, s.snapId < nextSnapshotId tm := by
  intro s hs
  have hpos : ∀ s ∈ tm.tmSnapshots, 1 ≤ s.snapId := fun s hs => h.positive s (h.mem hs)
  have hne : commits ≠ [] := List.ne_nil_of_mem hs
  obtain ⟨t, ht, heq⟩ := hc.newest _ (List.getLast?_eq_some_getLast hne)
  have hlt := nextSnapshotId_lt hc.id hpos ht
  have hle : s.snapId ≤ (commits.getLast hne).snapId := by
    have hsplit := List.dropLast_append_getLast hne
    have hids := h.ids
    rw [← hsplit] at hs hids
    rcases List.mem_append.1 hs with hs | hs
    · exact le_of_lt ((List.pairwise_append.1 hids).2.2 s hs _ List.mem_cons_self)
    · rw [List.mem_singleton.1 hs]
  omega

/-- A new reference to a snapshot that is there. -/
theorem insertRef (hsid : Exists tm r.srSnapshotId) (hmain : name = "main" → tm.tmCurrentSnapshotId = some r.srSnapshotId) :
    Inv { tm with tmSnapshotRefs := AssocMap.insert name r tm.tmSnapshotRefs } commits where
  sub := h.sub
  ids := h.ids
  positive := h.positive
  numbers := h.numbers
  last := h.last
  lastRange := h.lastRange
  parents := h.parents
  times := h.times
  refs e he := by
    rcases AssocMap.mem_insert he with rfl | he
    · exact hsid
    · exact h.refs e he
  current := h.current
  main r' hr := by
    rw [AssocMap.lookup_insert] at hr
    split_ifs at hr with hname
    · cases hr
      exact hmain hname.symm
    · exact h.main r' hr
  ascending := h.ascending.insert name r

theorem setCurrent : Inv (setCurrentSnapshot sid tm) commits := by
  unfold setCurrentSnapshot
  cases hs : snapshotById tm sid with
  | none => exact h
  | some s =>
    have hsid : Exists tm sid := exists_of_snapshotById hs
    refine ⟨h.sub, h.ids, h.positive, h.numbers, h.last, h.lastRange, h.parents, h.times, ?_, ?_, ?_, h.ascending.insert _ _⟩
    · intro e he
      rcases AssocMap.mem_insert he with rfl | he
      · cases AssocMap.lookup "main" tm.tmSnapshotRefs <;> exact hsid
      · exact h.refs e he
    · intro sid' heq
      cases heq
      exact hsid
    · intro r hr
      rw [AssocMap.lookup_insert, if_pos rfl] at hr
      cases hr
      cases AssocMap.lookup "main" tm.tmSnapshotRefs <;> rfl

/-- The state after a commit. -/
theorem commit (hc : CommitCareful tm commits) {ts : Int} (hts : InRange ts) (mlPath : String)
    (userSummary : AssocMap String String) (schId : Option Int) (op : String) :
    Inv (addSnapshot tm ts mlPath userSummary schId op) (commits ++ [newSnapshot tm ts mlPath userSummary schId op]) := by
  have hrange := h.lastRange
  have hnumber : addInt tm.tmLastSequenceNumber 1 = tm.tmLastSequenceNumber + 1 := by
    have hlt := hc.number
    exact addInt_eq (by unfold InRange at *; omega)
  have hnew : Exists (addSnapshot tm ts mlPath userSummary schId op) (nextSnapshotId tm) :=
    ⟨newSnapshot tm ts mlPath userSummary schId op, List.mem_append_right _ List.mem_cons_self, rfl⟩
  have hold {sid : Int} (hsid : Exists tm sid) : Exists (addSnapshot tm ts mlPath userSummary schId op) sid := by
    obtain ⟨t, ht, heq⟩ := hsid
    exact ⟨t, List.mem_append_left _ ht, heq⟩
  have hpos : ∀ s ∈ tm.tmSnapshots, 1 ≤ s.snapId := fun s hs => h.positive s (h.mem hs)
  refine ⟨h.sub.append (List.Sublist.refl _), ?_, ?_, ?_, ?_, addInt_inRange _ _, ?_, ?_, ?_, ?_, ?_, h.ascending.insert _ _⟩
  · refine List.pairwise_append.2 ⟨h.ids, List.pairwise_singleton _ _, fun s hs t ht => ?_⟩
    rw [List.mem_singleton.1 ht]
    exact h.next_fresh hc s hs
  · intro s hs
    rcases List.mem_append.1 hs with hs | hs
    · exact h.positive s hs
    · rw [List.mem_singleton.1 hs]
      exact nextSnapshotId_pos hc.id hpos
  · refine List.pairwise_append.2 ⟨h.numbers, List.pairwise_singleton _ _, fun s hs t ht => ?_⟩
    rw [List.mem_singleton.1 ht]
    have hle := h.last s hs
    show s.snapSequenceNumber < addInt tm.tmLastSequenceNumber 1
    omega
  · intro s hs
    show s.snapSequenceNumber ≤ addInt tm.tmLastSequenceNumber 1
    rcases List.mem_append.1 hs with hs | hs
    · have hle := h.last s hs
      omega
    · rw [List.mem_singleton.1 hs]
      exact le_rfl
  · intro s hs p hp
    rcases List.mem_append.1 hs with hs | hs
    · exact h.parents s hs p hp
    · rw [List.mem_singleton.1 hs] at hp ⊢
      obtain ⟨t, ht, rfl⟩ := h.current p hp
      exact nextSnapshotId_lt hc.id hpos ht
  · intro s hs
    rcases List.mem_append.1 hs with hs | hs
    · exact h.times s hs
    · rw [List.mem_singleton.1 hs]
      exact hts
  · intro e he
    rcases AssocMap.mem_insert he with rfl | he
    · exact hnew
    · exact hold (h.refs e he)
  · intro sid hsid
    cases hsid
    exact hnew
  · intro r hr
    rw [show (addSnapshot tm ts mlPath userSummary schId op).tmSnapshotRefs =
      AssocMap.insert "main" (plainBranch (nextSnapshotId tm)) tm.tmSnapshotRefs from rfl, AssocMap.lookup_insert, if_pos rfl] at hr
    cases hr
    rfl

theorem remove : Inv (removeRef name tm) commits := by
  unfold removeRef
  split_ifs with hname
  · exact h
  · refine ⟨h.sub, h.ids, h.positive, h.numbers, h.last, h.lastRange, h.parents, h.times, ?_, h.current, ?_,
      AssocMap.Ascending.filter h.ascending _⟩
    · exact fun e he => h.refs e (List.mem_of_mem_filter he)
    · intro r hr
      rw [AssocMap.lookup_erase, if_neg (Ne.symm hname)] at hr
      exact h.main r hr

theorem fastForward (hcareful : (Operation.fastForward name sid).Careful tm commits)
    (hrun : fastForwardBranch fuel name sid tm = some tm') : Inv tm' commits := by
  unfold fastForwardBranch at hrun
  cases href : AssocMap.lookup name tm.tmSnapshotRefs with
  | none =>
    rw [href] at hrun
    cases hrun
    exact h
  | some r =>
    rw [href] at hrun
    obtain ⟨history, hhistory, hif⟩ := Option.map_eq_some_iff.1 hrun
    split_ifs at hif with hmem
    · cases hif
      have hsid : Exists tm sid := by
        cases fuel with
        | zero => cases hhistory
        | succ fuel =>
          rw [Iceberg.ancestors] at hhistory
          cases hs : snapshotById tm sid with
          | none =>
            rw [hs] at hhistory
            cases hhistory
            cases hmem
          | some s => exact exists_of_snapshotById hs
      refine h.insertRef hsid fun hname => ?_
      subst hname
      have heq := hcareful rfl r href fuel history hhistory hmem
      rw [← heq]
      exact h.main r href
    · cases hif
      exact h

theorem rollback {res : Except String TableMetadata} (hrun : rollbackToSnapshot fuel sid tm = some res) :
    Inv (rolledBack tm res) commits := by
  unfold rollbackToSnapshot at hrun
  split at hrun
  · cases hrun
    exact h
  · split_ifs at hrun
    · cases hrun
      exact h
    · obtain ⟨found, -, hres⟩ := Option.map_eq_some_iff.1 hrun
      split_ifs at hres
      · cases hres
        exact h
      · split at hres
        · cases hres
          exact h
        · cases hres
          exact h.setCurrent

end Inv

/-! ## Expiry -/

/-- A snapshot whose id is retained stays. -/
theorem shouldKeep_of_retained (hret : s.snapId ∈ retainedIds tm policy) : shouldKeep nowMs policy tm s = true := by
  simp [shouldKeep, hret]

theorem expire_snapshots : (expireSnapshots nowMs policy tm).exNewMetadata.tmSnapshots =
    tm.tmSnapshots.filter (shouldKeep nowMs policy tm) := by
  simp [expireSnapshots, List.partition_eq_filter_filter]

/-- The ids that are retained and there are kept. -/
theorem keepIds_of_retained (hsid : Exists tm sid) (hret : sid ∈ retainedIds tm policy) :
    ((tm.tmSnapshots.filter (shouldKeep nowMs policy tm)).map Snapshot.snapId).contains sid = true := by
  obtain ⟨s, hs, rfl⟩ := hsid
  rw [List.contains_iff_mem]
  exact List.mem_map_of_mem (List.mem_filter.2 ⟨hs, shouldKeep_of_retained hret⟩)

theorem retained_of_ref {e : String × SnapshotRef} (he : e ∈ tm.tmSnapshotRefs) : e.2.srSnapshotId ∈ retainedIds tm policy := by
  refine List.mem_append_left _ (List.mem_append_left _ ?_)
  exact List.mem_map.2 ⟨e, he, rfl⟩

theorem retained_of_current (hsid : tm.tmCurrentSnapshotId = some sid) : sid ∈ retainedIds tm policy := by
  refine List.mem_append_left _ (List.mem_append_right _ ?_)
  rw [hsid]
  exact List.mem_singleton_self sid

theorem Inv.expire_refs (h : Inv tm commits) :
    (expireSnapshots nowMs policy tm).exNewMetadata.tmSnapshotRefs = tm.tmSnapshotRefs := by
  simp only [expireSnapshots, List.partition_eq_filter_filter]
  exact List.filter_eq_self.2 fun e he => keepIds_of_retained (h.refs e he) (retained_of_ref he)

theorem Inv.expire_current (h : Inv tm commits) :
    (expireSnapshots nowMs policy tm).exNewMetadata.tmCurrentSnapshotId = tm.tmCurrentSnapshotId := by
  simp only [expireSnapshots, List.partition_eq_filter_filter]
  cases hcur : tm.tmCurrentSnapshotId with
  | none => rfl
  | some sid =>
    have hret : sid ∈ retainedIds tm policy := retained_of_current hcur
    rw [Option.filter_some, if_pos (keepIds_of_retained (h.current sid hcur) hret)]

theorem Inv.expire (h : Inv tm commits) : Inv (expireSnapshots nowMs policy tm).exNewMetadata commits := by
  have hexists {sid : Int} (hsid : Exists tm sid) (hret : sid ∈ retainedIds tm policy) :
      Exists (expireSnapshots nowMs policy tm).exNewMetadata sid := by
    obtain ⟨s, hs, rfl⟩ := hsid
    refine ⟨s, ?_, rfl⟩
    rw [expire_snapshots]
    exact List.mem_filter.2 ⟨hs, shouldKeep_of_retained hret⟩
  refine ⟨?_, h.ids, h.positive, h.numbers, h.last, h.lastRange, h.parents, h.times, ?_, ?_, ?_, ?_⟩
  · rw [expire_snapshots]
    exact List.filter_sublist.trans h.sub
  · intro e he
    rw [h.expire_refs] at he
    exact hexists (h.refs e he) (retained_of_ref he)
  · intro sid hsid
    rw [h.expire_current] at hsid
    exact hexists (h.current sid hsid) (retained_of_current hsid)
  · intro r hr
    rw [h.expire_refs] at hr
    rw [h.expire_current]
    exact h.main r hr
  · rw [h.expire_refs]
    exact h.ascending

theorem sortedNewest_perm (snaps : List Snapshot) : (sortedNewest snaps).Perm snaps :=
  (List.reverse_perm _).trans (List.perm_insertionSort _ _)

theorem sortedNewest_pairwise (snaps : List Snapshot) :
    (sortedNewest snaps).Pairwise fun s t => t.snapTimestampMs ≤ s.snapTimestampMs := by
  have htotal : Std.Total fun s t : Snapshot => s.snapTimestampMs ≤ t.snapTimestampMs := ⟨fun s t => le_total _ _⟩
  have htrans : IsTrans Snapshot fun s t => s.snapTimestampMs ≤ t.snapTimestampMs := ⟨fun _ _ _ => le_trans⟩
  rw [sortedNewest, List.pairwise_reverse]
  exact List.pairwise_insertionSort _ _

/-- A snapshot that few are as new as is among the newest. -/
theorem mem_take_sortedNewest {snaps : List Snapshot} {n : Nat} (hs : s ∈ snaps)
    (hcount : (snaps.countP fun t => s.snapTimestampMs ≤ t.snapTimestampMs) ≤ n) : s ∈ (sortedNewest snaps).take n := by
  obtain ⟨newer, older, hsplit⟩ := List.append_of_mem ((sortedNewest_perm snaps).mem_iff.2 hs)
  have hsorted := sortedNewest_pairwise snaps
  rw [← (sortedNewest_perm snaps).countP_eq, hsplit, List.countP_append, List.countP_cons_of_pos (by simp)] at hcount
  have hnewer : newer.countP (fun t => s.snapTimestampMs ≤ t.snapTimestampMs) = newer.length := by
    refine List.countP_eq_length.2 fun t ht => ?_
    rw [hsplit] at hsorted
    simpa using (List.pairwise_append.1 hsorted).2.2 t ht s List.mem_cons_self
  rw [hsplit, List.take_append, List.mem_append]
  refine Or.inr ?_
  obtain ⟨k, hk⟩ : ∃ k, n - newer.length = k + 1 := ⟨n - newer.length - 1, by omega⟩
  rw [hk, List.take_succ_cons]
  exact List.mem_cons_self

/-- **What is protected is kept.** -/
theorem Inv.shouldKeep (h : Inv tm commits) (hcut : (Operation.expire nowMs policy).Careful tm commits) (hs : s ∈ tm.tmSnapshots)
    (hp : Protected nowMs policy tm s) : Iceberg.shouldKeep nowMs policy tm s = true := by
  rcases hp with ⟨e, he, heq⟩ | hcur | hret | hage | hcount
  · exact shouldKeep_of_retained (heq ▸ retained_of_ref he)
  · exact shouldKeep_of_retained (retained_of_current hcur)
  · exact shouldKeep_of_retained (List.mem_append_right _ hret)
  · have htime := h.times s (h.mem hs)
    have hcutoff : ageCutoff nowMs policy ≤ s.snapTimestampMs := by
      unfold ageCutoff
      cases hmax : policy.epMaxAgeMs with
      | none => exact htime.1
      | some age =>
        have hlow := hcut age hmax
        have hle := hage age hmax
        dsimp only
        rw [subInt_eq (by unfold InRange at *; omega)]
        exact hle
    simp [Iceberg.shouldKeep, hcutoff]
  · have hmem : s ∈ (sortedNewest tm.tmSnapshots).take policy.epMinSnapshots.toNat :=
      mem_take_sortedNewest hs (by omega)
    have hid : s.snapId ∈ ((sortedNewest tm.tmSnapshots).take policy.epMinSnapshots.toNat).map Snapshot.snapId :=
      List.mem_map_of_mem hmem
    simp only [Iceberg.shouldKeep, Bool.or_eq_true, List.contains_iff_mem]
    exact Or.inl (Or.inr hid)

/-- **The minimum count stays.** -/
theorem Inv.expire_minimum (h : Inv tm commits) : min policy.epMinSnapshots.toNat tm.tmSnapshots.length ≤
    (expireSnapshots nowMs policy tm).exNewMetadata.tmSnapshots.length := by
  have hnodup : tm.tmSnapshots.Nodup := (h.ids.sublist h.sub).imp fun hlt heq => by
    rw [heq] at hlt
    exact lt_irrefl _ hlt
  have hnewest : ((sortedNewest tm.tmSnapshots).take policy.epMinSnapshots.toNat).Nodup :=
    ((sortedNewest_perm _).nodup_iff.2 hnodup).sublist (List.take_sublist _ _)
  have hsub : (sortedNewest tm.tmSnapshots).take policy.epMinSnapshots.toNat ⊆
      (expireSnapshots nowMs policy tm).exNewMetadata.tmSnapshots := by
    intro s hs
    rw [expire_snapshots]
    refine List.mem_filter.2 ⟨(sortedNewest_perm _).mem_iff.1 (List.mem_of_mem_take hs), ?_⟩
    have hid : s.snapId ∈ ((sortedNewest tm.tmSnapshots).take policy.epMinSnapshots.toNat).map Snapshot.snapId :=
      List.mem_map_of_mem hs
    simp only [Iceberg.shouldKeep, Bool.or_eq_true, List.contains_iff_mem]
    exact Or.inl (Or.inr hid)
  have hlen := (List.subperm_of_subset hnewest hsub).length_le
  rwa [List.length_take, (sortedNewest_perm _).length_eq] at hlen

/-! ## Steps and runs -/

/-- A careful step keeps the invariant. -/
theorem Inv.step (h : Inv tm commits) (hop : op.Admissible tm) (hcareful : op.Careful tm commits)
    (hrun : op.run fuel tm = some tm') : Inv tm' (commits ++ (op.committed tm).toList) := by
  cases op with
  | append f =>
    cases hrun
    exact h.commit hcareful hop _ _ _ _
  | overwrite f =>
    cases hrun
    exact h.commit hcareful hop _ _ _ _
  | rowDelta f =>
    cases hrun
    exact h.commit hcareful hop _ _ _ _
  | createBranch name sid mra msa msk =>
    cases hrun
    rw [show (Operation.createBranch name sid mra msa msk).committed tm = none from rfl, Option.toList_none, List.append_nil]
    exact h.insertRef hop hcareful
  | createTag name sid mra =>
    cases hrun
    rw [show (Operation.createTag name sid mra).committed tm = none from rfl, Option.toList_none, List.append_nil]
    exact h.insertRef hop hcareful
  | removeRef name =>
    cases hrun
    rw [show (Operation.removeRef name).committed tm = none from rfl, Option.toList_none, List.append_nil]
    exact h.remove
  | fastForward name sid =>
    rw [show (Operation.fastForward name sid).committed tm = none from rfl, Option.toList_none, List.append_nil]
    exact h.fastForward hcareful hrun
  | rollback sid =>
    obtain ⟨res, hres, rfl⟩ := Option.map_eq_some_iff.1 hrun
    rw [show (Operation.rollback sid).committed tm = none from rfl, Option.toList_none, List.append_nil]
    exact h.rollback hres
  | setCurrent sid =>
    cases hrun
    rw [show (Operation.setCurrent sid).committed tm = none from rfl, Option.toList_none, List.append_nil]
    exact h.setCurrent
  | expire nowMs policy =>
    cases hrun
    rw [show (Operation.expire nowMs policy).committed tm = none from rfl, Option.toList_none, List.append_nil]
    exact h.expire

theorem Start.inv (h : Start tm) : Inv tm [] where
  sub := by rw [h.snapshots]
  ids := List.Pairwise.nil
  positive := by simp
  numbers := List.Pairwise.nil
  last := by simp
  lastRange := h.number
  parents := by simp
  times := by simp
  refs := by simp [h.refs]
  current := by simp [h.current]
  main := by simp [h.refs]
  ascending := by
    rw [h.refs]
    exact List.Pairwise.nil

theorem Run.inv {start : TableMetadata} (h : Run Operation.Careful start tm commits) : Inv tm commits := by
  induction h with
  | start h => exact h.inv
  | step _ hop hcareful hrun ih => exact ih.step hop hcareful hrun

/-! ## Walks -/

/-- The walk from an id ends, as ids fall along it. -/
theorem Inv.ancestors_end (h : Inv tm commits) (n : Nat) (sid : Int) (hn : sid.toNat ≤ n) :
    ∃ fuel history, ancestors tm fuel sid = some history := by
  induction n generalizing sid with
  | zero =>
    refine ⟨1, [], ?_⟩
    rw [ancestors]
    cases hs : snapshotById tm sid with
    | none => rfl
    | some s =>
      obtain ⟨hmem, heq⟩ := snapshotById_some hs
      have hpos := h.positive s (h.mem hmem)
      omega
  | succ n ih =>
    cases hs : snapshotById tm sid with
    | none => exact ⟨1, [], by rw [ancestors, hs]⟩
    | some s =>
      obtain ⟨hmem, heq⟩ := snapshotById_some hs
      cases hp : s.snapParentId with
      | none => exact ⟨1, [s], by simp only [ancestors, hs, hp]⟩
      | some p =>
        have hlt := h.parents s (h.mem hmem) p hp
        have hpos := h.positive s (h.mem hmem)
        obtain ⟨fuel, history, hhistory⟩ := ih p (by omega)
        exact ⟨fuel + 1, s :: history, by simp only [ancestors, hs, hp, hhistory, Option.map_some]⟩

theorem Inv.chain_end (h : Inv tm commits) (n : Nat) (s : Snapshot) (hs : s ∈ tm.tmSnapshots) (hn : s.snapId.toNat ≤ n) :
    ∃ fuel chain, snapshotParentChain tm fuel s = some chain := by
  induction n generalizing s with
  | zero =>
    have hpos := h.positive s (h.mem hs)
    omega
  | succ n ih =>
    cases hp : s.snapParentId.bind (snapshotById tm) with
    | none => exact ⟨1, [], by simp only [snapshotParentChain, hp]⟩
    | some parent =>
      obtain ⟨p, hsome, hparent⟩ := Option.bind_eq_some_iff.1 hp
      obtain ⟨hmem, heq⟩ := snapshotById_some hparent
      have hlt := h.parents s (h.mem hs) p hsome
      have hpos := h.positive s (h.mem hs)
      obtain ⟨fuel, chain, hchain⟩ := ih parent hmem (by omega)
      exact ⟨fuel + 1, parent :: chain, by simp only [snapshotParentChain, hp, hchain, Option.map_some]⟩

theorem ancestorsOf_end (h : Inv tm commits) (sid : Int) : ∃ fuel chain, ancestorsOf tm fuel sid = some chain := by
  cases hs : snapshotById tm sid with
  | none => exact ⟨0, [], by rw [ancestorsOf, hs]⟩
  | some s =>
    obtain ⟨fuel, chain, hchain⟩ := h.chain_end s.snapId.toNat s (snapshotById_some hs).1 le_rfl
    exact ⟨fuel, s :: chain, by simp only [ancestorsOf, hs, hchain, Option.map_some]⟩

/-- Every operation ends. -/
theorem Inv.run_ends (h : Inv tm commits) (op : Operation) : ∃ fuel tm', op.run fuel tm = some tm' := by
  cases op with
  | fastForward name sid =>
    obtain ⟨fuel, history, hhistory⟩ := h.ancestors_end sid.toNat sid le_rfl
    refine ⟨fuel, ?_⟩
    simp only [Operation.run, fastForwardBranch]
    cases AssocMap.lookup name tm.tmSnapshotRefs with
    | none => exact ⟨_, rfl⟩
    | some r =>
      simp only [hhistory, Option.map_some]
      exact ⟨_, rfl⟩
  | rollback sid =>
    cases hcur : tm.tmCurrentSnapshotId with
    | none =>
      refine ⟨0, ?_⟩
      simp only [Operation.run, rollbackToSnapshot, hcur, Option.map_some]
      exact ⟨_, rfl⟩
    | some cur =>
      obtain ⟨fuel, chain, hchain⟩ := ancestorsOf_end h cur
      refine ⟨fuel, ?_⟩
      simp only [Operation.run, rollbackToSnapshot, hcur, isAncestor, hchain, Option.map_some]
      split_ifs <;> exact ⟨_, rfl⟩
  | append f => exact ⟨0, _, rfl⟩
  | overwrite f => exact ⟨0, _, rfl⟩
  | rowDelta f => exact ⟨0, _, rfl⟩
  | createBranch name sid mra msa msk => exact ⟨0, _, rfl⟩
  | createTag name sid mra => exact ⟨0, _, rfl⟩
  | removeRef name => exact ⟨0, _, rfl⟩
  | setCurrent sid => exact ⟨0, _, rfl⟩
  | expire nowMs policy => exact ⟨0, _, rfl⟩

/-! ## The results -/

theorem Inv.consistent (h : Inv tm commits) : Consistent tm commits where
  distinct := by
    rw [List.Nodup, List.pairwise_map]
    exact (h.ids.sublist h.sub).imp fun hlt => ne_of_lt hlt
  fresh := by
    rw [List.Nodup, List.pairwise_map]
    exact h.ids.imp fun hlt => ne_of_lt hlt
  numbers := List.pairwise_map.2 h.numbers
  refs := h.refs
  current := h.current
  main := h.main
  parents s hs := h.parents s (h.mem hs)
  ancestors sid := h.ancestors_end sid.toNat sid le_rfl
  chains s hs := h.chain_end s.snapId.toNat s hs le_rfl

/-- A commit moves `main` only. -/
theorem commit_refs (ts : Int) (mlPath : String) (userSummary : AssocMap String String) (schId : Option Int) (o : String)
    (name : String) : AssocMap.lookup name (addSnapshot tm ts mlPath userSummary schId o).tmSnapshotRefs =
      if name = "main" then some (plainBranch (nextSnapshotId tm)) else AssocMap.lookup name tm.tmSnapshotRefs :=
  AssocMap.lookup_insert _ _ _ _

theorem Inv.stepSafe (h : Inv tm commits) (hcareful : op.Careful tm commits) (hrun : op.run fuel tm = some tm') :
    StepSafe tm op tm' where
  otherRefs s hs name hname := by
    cases op with
    | append f =>
      cases hrun
      exact (commit_refs _ _ _ _ _ _).trans (if_neg hname)
    | overwrite f =>
      cases hrun
      exact (commit_refs _ _ _ _ _ _).trans (if_neg hname)
    | rowDelta f =>
      cases hrun
      exact (commit_refs _ _ _ _ _ _).trans (if_neg hname)
    | _ => cases hs
  settings s hs r hr := by
    cases op with
    | append f =>
      cases hrun
      cases hs
      rw [hcareful.settings r hr]
      exact (commit_refs _ _ _ _ _ _).trans (if_pos rfl)
    | overwrite f =>
      cases hrun
      cases hs
      rw [hcareful.settings r hr]
      exact (commit_refs _ _ _ _ _ _).trans (if_pos rfl)
    | rowDelta f =>
      cases hrun
      cases hs
      rw [hcareful.settings r hr]
      exact (commit_refs _ _ _ _ _ _).trans (if_pos rfl)
    | _ => cases hs
  kept nowMs policy heq s hs hp := by
    subst heq
    cases hrun
    rw [expire_snapshots]
    exact List.mem_filter.2 ⟨hs, h.shouldKeep hcareful hs hp⟩
  minimum nowMs policy heq := by
    subst heq
    cases hrun
    exact h.expire_minimum

end

def emptyTable : TableMetadata := ⟨0, 0, none, [], [], []⟩

theorem emptyTable_start : Start emptyTable := ⟨rfl, rfl, rfl, by unfold InRange; decide⟩

/-- A commit at a time. -/
def changeAt (ts : Int) : FileChange := ⟨"snap.avro", ts, [], none, none⟩

/-- A step that takes no walk. -/
theorem Run.next {guard : TableMetadata → List Snapshot → Operation → Prop} {start tm tm' : TableMetadata}
    {commits : List Snapshot} (op : Operation) (h : Run guard start tm commits) (hop : op.Admissible tm)
    (hguard : guard tm commits op) (hrun : ∀ fuel, op.run fuel tm = some tm') :
    Run guard start tm' (commits ++ (op.committed tm).toList) := Run.step h hop hguard (hrun 0)

end Wireform.Iceberg

/-
  Planning keeps the contents of a table.

  * `binPackBySize_spec`: the bins hold the entries in their order;
    `binPackBySize_ends`: and the loop that cuts them ends;
  * `Holds`: a plan holds given entries, and its tasks agree with theirs;
  * `planning_conserves`: when the three plans do.
-/
import Wireform.Iceberg.ManifestMerge
import Mathlib.Data.List.Perm.Basic

namespace Wireform.Iceberg

/-! ## Bins -/

section
variable {policy : MergePolicy} {maxFiles target sz : Int} {xs rest : List ManifestEntry} {i : Nat}

theorem takeBin_go_spec (hi : i + rest.length = xs.length) :
    ∃ n, takeBin.go maxFiles target xs i sz rest = (xs.take n, xs.drop n) ∧ i ≤ n := by
  induction rest generalizing i sz with
  | nil =>
    refine ⟨xs.length, by simp [takeBin.go], ?_⟩
    rw [List.length_nil] at hi
    omega
  | cons x rest ih =>
    rw [List.length_cons] at hi
    rw [takeBin.go]
    split_ifs
    · exact ⟨i, rfl, le_rfl⟩
    · exact ⟨i, rfl, le_rfl⟩
    · obtain ⟨n, hn, hle⟩ := @ih (addInt sz (entrySize x)) (i + 1) (by omega)
      exact ⟨n, hn, by omega⟩

/-- A bin is a first part of the entries. -/
theorem takeBin_append (maxFiles target : Int) (xs : List ManifestEntry) :
    (takeBin maxFiles target xs).1 ++ (takeBin maxFiles target xs).2 = xs := by
  obtain ⟨n, hn, -⟩ := @takeBin_go_spec maxFiles target 0 xs xs 0 (Nat.zero_add _)
  rw [takeBin, hn]
  exact List.take_append_drop n xs

/-- Where a manifest may hold an entry, a bin takes one. -/
theorem takeBin_progress (hmax : 0 < maxFiles) (hxs : xs ≠ []) : (takeBin maxFiles target xs).2.length < xs.length := by
  obtain ⟨x, rest, rfl⟩ := List.exists_cons_of_ne_nil hxs
  have hgo : takeBin maxFiles target (x :: rest) = takeBin.go maxFiles target (x :: rest) 1 (addInt 0 (entrySize x)) rest := by
    rw [takeBin, takeBin.go, if_neg (by simpa using hmax), if_neg (by simp)]
  obtain ⟨n, hn, hle⟩ := @takeBin_go_spec maxFiles target (addInt 0 (entrySize x)) (x :: rest) rest 1 (Nat.add_comm _ _)
  rw [hgo, hn, List.length_drop, List.length_cons]
  omega

theorem takeBin_stuck (hmax : maxFiles ≤ 0) (hxs : xs ≠ []) : (takeBin maxFiles target xs).2 = xs := by
  obtain ⟨x, rest, rfl⟩ := List.exists_cons_of_ne_nil hxs
  rw [takeBin, takeBin.go, if_pos (by simpa using hmax)]
  rfl

theorem binPackBySize_go_spec {fuel : Nat} {acc bins : List Bin} (h : binPackBySize.go policy fuel acc xs = some bins) :
    bins.flatMap Bin.entries = acc.reverse.flatMap Bin.entries ++ xs := by
  induction fuel generalizing acc xs with
  | zero => cases h
  | succ fuel ih =>
    rw [binPackBySize.go] at h
    split_ifs at h with hnil
    · rw [List.isEmpty_iff] at hnil
      cases h
      rw [hnil, List.append_nil]
    · rw [ih h, List.reverse_cons, List.flatMap_append, List.append_assoc, List.flatMap_singleton, takeBin_append]

/-- **The bins hold the entries in their order.** -/
theorem binPackBySize_spec {fuel : Nat} {bins : List Bin} (h : binPackBySize fuel policy xs = some bins) :
    bins.flatMap Bin.entries = xs := binPackBySize_go_spec h

theorem binPackBySize_go_ends (hmax : 0 < policy.maxFilesPerManifest) {fuel : Nat} {acc : List Bin}
    (hfuel : xs.length < fuel) : ∃ bins, binPackBySize.go policy fuel acc xs = some bins := by
  induction fuel generalizing acc xs with
  | zero => exact absurd hfuel (Nat.not_lt_zero _)
  | succ fuel ih =>
    rw [binPackBySize.go]
    split_ifs with hnil
    · exact ⟨_, rfl⟩
    · have hlt := @takeBin_progress _ policy.targetSizeBytes xs hmax (mt List.isEmpty_iff.2 hnil)
      exact ih (by omega)

theorem binPackBySize_go_stuck (hmax : policy.maxFilesPerManifest ≤ 0) (hxs : xs ≠ []) (fuel : Nat) (acc : List Bin) :
    binPackBySize.go policy fuel acc xs = none := by
  induction fuel generalizing acc with
  | zero => rfl
  | succ fuel ih =>
    rw [binPackBySize.go, if_neg (mt List.isEmpty_iff.1 hxs)]
    dsimp only
    rw [takeBin_stuck hmax hxs]
    exact ih _

/-- **The loop ends exactly where a manifest may hold an entry**, or there is
    none. -/
theorem binPackBySize_ends : (∃ fuel bins, binPackBySize fuel policy xs = some bins) ↔
    0 < policy.maxFilesPerManifest ∨ xs = [] := by
  constructor
  · rintro ⟨fuel, bins, h⟩
    by_contra hno
    push Not at hno
    rw [binPackBySize, binPackBySize_go_stuck hno.1 hno.2] at h
    cases h
  · rintro (hmax | rfl)
    · exact ⟨xs.length + 1, binPackBySize_go_ends hmax (Nat.lt_succ_self _)⟩
    · exact ⟨1, [], rfl⟩

end

/-! ## Tasks -/

/-- The sequence number of an entry of a task; an entry without one inherits the
    manifest's. -/
def WriteManifestTask.number (t : WriteManifestTask) (e : ManifestEntry) : Int := e.sequenceNumber.getD t.sequenceNumber

/-- A task agrees with its entries: its minimum is at most their numbers and one
    of them (unless all of them are above the manifest's own), and the counts of
    its manifest list entry are theirs. -/
structure WriteManifestTask.Agrees (t : WriteManifestTask) : Prop where
  least : ∀ e ∈ t.entries, t.minSequenceNumber ≤ t.number e
  attained : (∃ e ∈ t.entries, t.number e ≤ t.sequenceNumber) → ∃ e ∈ t.entries, t.number e = t.minSequenceNumber
  minimum : (manifestFilePlaceholder t).minSequenceNumber = t.minSequenceNumber
  added : (manifestFilePlaceholder t).addedDataFilesCount = some (t.entries.countP fun e => e.status = .added : Nat)
  existing : (manifestFilePlaceholder t).existingDataFilesCount = some (t.entries.countP fun e => e.status = .existing : Nat)
  deleted : (manifestFilePlaceholder t).deletedDataFilesCount = some (t.entries.countP fun e => e.status = .deleted : Nat)
  addedRows : (manifestFilePlaceholder t).addedRowsCount =
    some (wrap ((t.entries.filter fun e => e.status = .added).map ManifestEntry.recordCount).sum)
  existingRows : (manifestFilePlaceholder t).existingRowsCount =
    some (wrap ((t.entries.filter fun e => e.status = .existing).map ManifestEntry.recordCount).sum)
  deletedRows : (manifestFilePlaceholder t).deletedRowsCount =
    some (wrap ((t.entries.filter fun e => e.status = .deleted).map ManifestEntry.recordCount).sum)

theorem minOpt_le (acc : Int) (me : ManifestEntry) : minOpt acc me ≤ acc := by
  unfold minOpt
  split
  · exact min_le_left _ _
  · exact le_rfl

theorem foldl_minOpt_le (entries : List ManifestEntry) (acc : Int) : entries.foldl minOpt acc ≤ acc := by
  induction entries generalizing acc with
  | nil => exact le_rfl
  | cons me entries ih => exact (ih _).trans (minOpt_le acc me)

theorem foldl_minOpt_least (entries : List ManifestEntry) (acc : Int) :
    ∀ e ∈ entries, entries.foldl minOpt acc ≤ e.sequenceNumber.getD acc := by
  induction entries generalizing acc with
  | nil => exact fun e he => absurd he List.not_mem_nil
  | cons me entries ih =>
    intro e he
    rw [List.foldl_cons]
    rcases List.mem_cons.1 he with rfl | he
    · refine (foldl_minOpt_le entries _).trans ?_
      unfold minOpt
      cases e.sequenceNumber with
      | none => exact le_rfl
      | some s => exact min_le_right _ _
    · have hle := ih (minOpt acc me) e he
      cases hs : e.sequenceNumber with
      | none =>
        rw [hs, Option.getD_none] at hle
        exact hle.trans (minOpt_le acc me)
      | some s =>
        rw [hs, Option.getD_some] at hle
        exact hle

/-- It is the first value or one of the numbers. -/
theorem foldl_minOpt_attained (entries : List ManifestEntry) (acc : Int) :
    entries.foldl minOpt acc = acc ∨ ∃ e ∈ entries, e.sequenceNumber = some (entries.foldl minOpt acc) := by
  induction entries generalizing acc with
  | nil => exact Or.inl rfl
  | cons me entries ih =>
    rw [List.foldl_cons]
    rcases ih (minOpt acc me) with heq | ⟨e, he, hs⟩
    · rw [heq]
      unfold minOpt
      cases hs : me.sequenceNumber with
      | none => exact Or.inl rfl
      | some s =>
        rcases min_choice acc s with hmin | hmin
        · exact Or.inl hmin
        · exact Or.inr ⟨me, List.mem_cons_self, hs.trans (congrArg some hmin.symm)⟩
    · exact Or.inr ⟨e, List.mem_cons_of_mem _ he, hs⟩

theorem sumRows_eq (entries : List ManifestEntry) (status : ManifestStatus) :
    sumRows entries status = wrap ((entries.filter fun e => e.status = status).map ManifestEntry.recordCount).sum := by
  have hgo : ∀ acc, InRange acc → entries.foldl (fun acc me => if me.status = status then addInt acc me.recordCount else acc) acc =
      wrap (acc + ((entries.filter fun e => e.status = status).map ManifestEntry.recordCount).sum) := by
    induction entries with
    | nil =>
      intro acc hacc
      simpa using (wrap_eq hacc).symm
    | cons me entries ih =>
      intro acc hacc
      rw [List.foldl_cons]
      split_ifs with hs
      · rw [ih _ (addInt_inRange _ _), List.filter_cons_of_pos (by simpa using hs), List.map_cons, List.sum_cons]
        unfold addInt wrap
        omega
      · rw [ih _ hacc, List.filter_cons_of_neg (by simpa using hs)]
  rw [sumRows, hgo 0 (by unfold InRange; omega), Int.zero_add]

/-- **Every new task agrees with its entries.** -/
theorem newManifestTask_agrees (seqNum snap specId : Int) (content : ManifestContent) (path : String)
    (entries : List ManifestEntry) : (newManifestTask seqNum snap specId content path entries).Agrees where
  least := foldl_minOpt_least entries seqNum
  attained := by
    rintro ⟨e, he, hle⟩
    rcases foldl_minOpt_attained entries seqNum with heq | ⟨e', he', hs⟩
    · refine ⟨e, he, le_antisymm (hle.trans (le_of_eq heq.symm)) ?_⟩
      exact foldl_minOpt_least entries seqNum e he
    · exact ⟨e', he', by rw [WriteManifestTask.number, hs]; rfl⟩
  minimum := rfl
  added := by simp [manifestFilePlaceholder, countStatus, List.countP_eq_length_filter]
  existing := by simp [manifestFilePlaceholder, countStatus, List.countP_eq_length_filter]
  deleted := by simp [manifestFilePlaceholder, countStatus, List.countP_eq_length_filter]
  addedRows := congrArg some (sumRows_eq entries .added)
  existingRows := congrArg some (sumRows_eq entries .existing)
  deletedRows := congrArg some (sumRows_eq entries .deleted)

theorem binTasks_entries (genPath : String → Nat → String) (seqNum snap specId : Int) (bins : List Bin) :
    (binTasks genPath seqNum snap specId bins).flatMap WriteManifestTask.entries = bins.flatMap Bin.entries := by
  have hmap : (binTasks genPath seqNum snap specId bins).map WriteManifestTask.entries = bins.map Bin.entries := by
    refine List.ext_getElem (by simp [binTasks]) fun i _ _ => ?_
    simp only [binTasks, List.getElem_map, List.getElem_mapIdx]
    rfl
  rw [List.flatMap_def, List.flatMap_def, hmap]

theorem binTasks_agree {genPath : String → Nat → String} {seqNum snap specId : Int} {bins : List Bin} :
    ∀ t ∈ binTasks genPath seqNum snap specId bins, t.Agrees := by
  intro t ht
  obtain ⟨i, hi, rfl⟩ := List.mem_mapIdx.1 ht
  exact newManifestTask_agrees _ _ _ _ _ _

/-! ## Numbers -/

/-- The entry with the numbers of a commit. -/
def stamp (seqNum snap : Int) (me : ManifestEntry) : ManifestEntry :=
  { me with snapshotId := some snap, sequenceNumber := some seqNum, fileSequenceNumber := some seqNum }

/-- The entry has them. -/
def Stamped (seqNum snap : Int) (me : ManifestEntry) : Prop :=
  me.snapshotId = some snap ∧ me.sequenceNumber = some seqNum ∧ me.fileSequenceNumber = some seqNum

section
variable {seqNum snap : Int} {me : ManifestEntry}

theorem stamp_eq_iff : stamp seqNum snap me = me ↔ Stamped seqNum snap me := by
  obtain ⟨status, snapshotId, sequenceNumber, fileSequenceNumber, path, format, count, size, file⟩ := me
  simp only [stamp, Stamped, ManifestEntry.mk.injEq, true_and, and_true]
  constructor
  · rintro ⟨h, h', h''⟩
    exact ⟨h.symm, h'.symm, h''.symm⟩
  · rintro ⟨h, h', h''⟩
    exact ⟨h.symm, h'.symm, h''.symm⟩

@[simp] theorem stamp_status : (stamp seqNum snap me).status = me.status := rfl

theorem stamp_stamp : stamp seqNum snap (stamp seqNum snap me) = stamp seqNum snap me := rfl

theorem assign_added (h : me.status = .added) : assignSequenceNumbers seqNum snap me = stamp seqNum snap me := by
  obtain ⟨status, _⟩ := me
  cases h
  rfl

theorem assign_other (h : me.status ≠ .added) : assignSequenceNumbers seqNum snap me = me := by
  obtain ⟨status, _⟩ := me
  cases status with
  | added => exact absurd rfl h
  | existing => rfl
  | deleted => rfl

/-- A list that keeps its contents under stamps is stamped. -/
theorem stamped_of_perm {xs : List ManifestEntry} (h : (xs.map (stamp seqNum snap)).Perm xs) :
    ∀ e ∈ xs, Stamped seqNum snap e := by
  intro e he
  obtain ⟨e', -, rfl⟩ := List.mem_map.1 (h.mem_iff.2 he)
  exact stamp_eq_iff.1 stamp_stamp

theorem filter_map_status {f : ManifestEntry → ManifestEntry} (hf : ∀ e, (f e).status = e.status) (p : ManifestStatus → Bool)
    (xs : List ManifestEntry) : (xs.map f).filter (fun e => p e.status) = (xs.filter fun e => p e.status).map f := by
  rw [List.filter_map]
  congr 1
  exact List.filter_congr fun e _ => by rw [Function.comp_apply, hf e]

theorem assign_status (e : ManifestEntry) : (assignSequenceNumbers seqNum snap e).status = e.status := rfl

/-- **Assigning keeps the old entries and stamps the new ones** exactly where the
    old ones that are added have the numbers and the new ones that are not. -/
theorem assign_perm_iff {old new : List ManifestEntry} :
    ((new ++ old).map (assignSequenceNumbers seqNum snap)).Perm (old ++ new.map (stamp seqNum snap)) ↔
      (∀ e ∈ new, e.status = .added ∨ Stamped seqNum snap e) ∧ ∀ e ∈ old, e.status = .added → Stamped seqNum snap e := by
  constructor
  · intro h
    -- the added entries and the others are compared apart
    have hpart (p : ManifestStatus → Bool) := h.filter fun e => p e.status
    simp only [filter_map_status assign_status, filter_map_status (fun _ => stamp_status), List.filter_append,
      List.map_append] at hpart
    constructor
    · intro e he
      by_cases hadd : e.status = .added
      · exact Or.inl hadd
      · have hother := hpart fun st => decide (st ≠ .added)
        have hsame (xs : List ManifestEntry) : (xs.filter fun e => decide (e.status ≠ .added)).map
            (assignSequenceNumbers seqNum snap) = xs.filter fun e => decide (e.status ≠ .added) :=
          (List.map_congr_left fun e he => assign_other (by simpa using (List.mem_filter.1 he).2)).trans (List.map_id' _)
        rw [hsame, hsame] at hother
        have hstamp := stamped_of_perm (((List.perm_append_left_iff _).1 (List.perm_append_comm.trans hother)).symm)
        exact Or.inr (hstamp e (List.mem_filter.2 ⟨he, by simpa using hadd⟩))
    · intro e he hadd
      have hadded := hpart fun st => decide (st = .added)
      have hstamps (xs : List ManifestEntry) : (xs.filter fun e => decide (e.status = .added)).map
          (assignSequenceNumbers seqNum snap) = (xs.filter fun e => decide (e.status = .added)).map (stamp seqNum snap) :=
        List.map_congr_left fun e he => assign_added (by simpa using (List.mem_filter.1 he).2)
      rw [hstamps, hstamps] at hadded
      have hstamp := stamped_of_perm ((List.perm_append_right_iff _).1 (List.perm_append_comm.trans hadded))
      exact hstamp e (List.mem_filter.2 ⟨he, by simpa using hadd⟩)
  · rintro ⟨hnew, hold⟩
    have hmap : new.map (assignSequenceNumbers seqNum snap) = new.map (stamp seqNum snap) := by
      refine List.map_congr_left fun e he => ?_
      by_cases hadd : e.status = .added
      · exact assign_added hadd
      · rw [assign_other hadd, stamp_eq_iff.2 ((hnew e he).resolve_left hadd)]
    have hmap' : old.map (assignSequenceNumbers seqNum snap) = old := by
      refine (List.map_congr_left fun e he => ?_).trans (List.map_id' old)
      by_cases hadd : e.status = .added
      · rw [assign_added hadd, stamp_eq_iff.2 (hold e he hadd)]
      · exact assign_other hadd
    rw [List.map_append, hmap, hmap']
    exact List.perm_append_comm

end

/-! ## Plans -/

section
variable (entriesOf : ManifestFile → List ManifestEntry)

/-- The plan holds the contents: in its tasks, and in manifests that it keeps of
    the existing ones; and the tasks agree with their entries. -/
structure CommitPlan.Holds (existing : List ManifestFile) (contents : List ManifestEntry) (plan : CommitPlan) : Prop where
  list : ∃ kept, plan.newManifestList = plan.newManifests.map manifestFilePlaceholder ++ kept ∧ (∀ mf ∈ kept, mf ∈ existing) ∧
    (plan.newManifests.flatMap WriteManifestTask.entries ++ kept.flatMap entriesOf).Perm contents
  agree : ∀ t ∈ plan.newManifests, t.Agrees

/-- Planning ends, and only with plans that are good. -/
def Plans (run : Nat → Option (Except String CommitPlan)) (good : CommitPlan → Prop) : Prop :=
  (∃ fuel r, run fuel = some r) ∧ ∀ fuel r, run fuel = some r → ∃ plan, r = .ok plan ∧ good plan

/-- The manifests that an append may merge. -/
def mergeable (policy : MergePolicy) (specId : Int) (existing : List ManifestFile) : List ManifestFile :=
  (existing.filter (sameSpec specId)).filter (isMergeable policy)

/-- When an append loses no entry and gives no entry numbers that are not its
    own. -/
structure AppendSafe (policy : MergePolicy) (seqNum snap specId : Int) (newEntries : List ManifestEntry)
    (existing : List ManifestFile) : Prop where
  new : ∀ e ∈ newEntries, e.status = .added ∨ Stamped seqNum snap e
  few : policy.mergeEnabled = true → ((mergeable policy specId existing).length : Int) < policy.minCountToMerge →
    ∀ mf ∈ mergeable policy specId existing, entriesOf mf = []
  merged : policy.mergeEnabled = true → policy.minCountToMerge ≤ ((mergeable policy specId existing).length : Int) →
    ∀ mf ∈ mergeable policy specId existing, ∀ e ∈ entriesOf mf, e.status = .added → Stamped seqNum snap e
  ends : policy.mergeEnabled = true → policy.minCountToMerge ≤ ((mergeable policy specId existing).length : Int) →
    0 < policy.maxFilesPerManifest ∨ newEntries = [] ∧ ∀ mf ∈ mergeable policy specId existing, entriesOf mf = []

end

/-- The manifests that it leaves. -/
def untouched (policy : MergePolicy) (specId : Int) (existing : List ManifestFile) : List ManifestFile :=
  (existing.filter (sameSpec specId)).filter (fun mf => !isMergeable policy mf) ++ existing.filter fun mf => !sameSpec specId mf

section
variable {policy : MergePolicy} {genPath : String → Nat → String} {fuel : Nat}
  {readEntries : ManifestFile → Except String (List ManifestEntry)} {entriesOf : ManifestFile → List ManifestEntry}
  {seqNum snap specId : Int} {newEntries contents : List ManifestEntry} {existing toRewrite keep : List ManifestFile}

theorem mergeable_perm (policy : MergePolicy) (specId : Int) (existing : List ManifestFile) :
    (mergeable policy specId existing ++ untouched policy specId existing).Perm existing := by
  have hsize := List.filter_append_perm (isMergeable policy) (existing.filter (sameSpec specId))
  have hspec := List.filter_append_perm (sameSpec specId) existing
  rw [untouched, ← List.append_assoc]
  exact (hsize.append_right _).trans hspec

theorem untouched_subset {mf : ManifestFile} (h : mf ∈ untouched policy specId existing) : mf ∈ existing :=
  (mergeable_perm policy specId existing).mem_iff.1 (List.mem_append_right _ h)

theorem mergeable_subset {mf : ManifestFile} (h : mf ∈ mergeable policy specId existing) : mf ∈ existing :=
  (mergeable_perm policy specId existing).mem_iff.1 (List.mem_append_left _ h)

/-- A plan of tasks that agree, in front of manifests it keeps, holds the
    contents that they have together. -/
theorem CommitPlan.holds_iff {plan : CommitPlan} {kept : List ManifestFile}
    (hlist : plan.newManifestList = plan.newManifests.map manifestFilePlaceholder ++ kept)
    (hkept : ∀ mf ∈ kept, mf ∈ existing) (hagree : ∀ t ∈ plan.newManifests, t.Agrees) :
    plan.Holds entriesOf existing contents ↔
      (plan.newManifests.flatMap WriteManifestTask.entries ++ kept.flatMap entriesOf).Perm contents := by
  constructor
  · rintro ⟨⟨kept', hlist', -, hperm⟩, -⟩
    rw [hlist, List.append_cancel_left_eq] at hlist'
    rwa [← hlist'] at hperm
  · intro hperm
    exact ⟨⟨kept, hlist, hkept, hperm⟩, hagree⟩

theorem mapM_read {mfs : List ManifestFile} (hread : ∀ mf ∈ mfs, readEntries mf = .ok (entriesOf mf)) :
    mfs.mapM readEntries = .ok (mfs.map entriesOf) := by
  induction mfs with
  | nil => rfl
  | cons mf mfs ih =>
    rw [List.mapM_cons, hread mf List.mem_cons_self, ih fun mf' h => hread mf' (List.mem_cons_of_mem _ h)]
    rfl

/-- A run that is a plan for every fuel. -/
theorem plans_const {run : Nat → Option (Except String CommitPlan)} {plan : CommitPlan} {good : CommitPlan → Prop}
    (h : ∀ fuel, run fuel = some (.ok plan)) : Plans run good ↔ good plan := by
  constructor
  · rintro ⟨-, hgood⟩
    obtain ⟨plan', heq, hplan⟩ := hgood 0 _ (h 0)
    cases heq
    exact hplan
  · intro hplan
    refine ⟨⟨0, _, h 0⟩, fun fuel r hr => ⟨plan, ?_, hplan⟩⟩
    rw [h fuel] at hr
    exact (Option.some.inj hr).symm

/-- The plan of bins in front of manifests that are kept. -/
def binPlan (genPath : String → Nat → String) (seqNum snap specId : Int) (kept : List ManifestFile) (bins : List Bin) :
    CommitPlan where
  newManifests := binTasks genPath seqNum snap specId bins
  newManifestList := (binTasks genPath seqNum snap specId bins).map manifestFilePlaceholder ++ kept

/-- A run that cuts entries into bins. -/
theorem plans_bins {run : Nat → Option (Except String CommitPlan)} {entries : List ManifestEntry} {kept : List ManifestFile}
    (hrun : ∀ fuel, run fuel = (binPackBySize fuel policy entries).map fun bins => .ok (binPlan genPath seqNum snap specId kept bins))
    (hkept : ∀ mf ∈ kept, mf ∈ existing) : Plans run (CommitPlan.Holds entriesOf existing contents) ↔
      (0 < policy.maxFilesPerManifest ∨ entries = []) ∧ (entries ++ kept.flatMap entriesOf).Perm contents := by
  have hholds {fuel : Nat} {bins : List Bin} (hbins : binPackBySize fuel policy entries = some bins) :
      (binPlan genPath seqNum snap specId kept bins).Holds entriesOf existing contents ↔
        (entries ++ kept.flatMap entriesOf).Perm contents := by
    rw [CommitPlan.holds_iff rfl hkept binTasks_agree, binPlan, binTasks_entries, binPackBySize_spec hbins]
  rw [← binPackBySize_ends]
  constructor
  · rintro ⟨⟨fuel, r, hr⟩, hgood⟩
    obtain ⟨plan, -, hplan⟩ := hgood fuel r hr
    rw [hrun, Option.map_eq_some_iff] at hr
    obtain ⟨bins, hbins, rfl⟩ := hr
    obtain ⟨plan', heq, hplan'⟩ := hgood fuel _ (by rw [hrun, hbins]; rfl)
    cases heq
    exact ⟨⟨fuel, bins, hbins⟩, (hholds hbins).1 hplan'⟩
  · rintro ⟨⟨fuel, bins, hbins⟩, hperm⟩
    refine ⟨⟨fuel, _, by rw [hrun, hbins]; rfl⟩, fun fuel' r hr => ?_⟩
    rw [hrun, Option.map_eq_some_iff] at hr
    obtain ⟨bins', hbins', rfl⟩ := hr
    exact ⟨_, rfl, (hholds hbins').2 hperm⟩

/-! ## The appends -/

/-- **Fast append**, in front of manifests of the table. -/
theorem fast_holds_iff {kept : List ManifestFile} {path : String} (hkept : ∀ mf ∈ kept, mf ∈ existing) :
    (planFastAppend seqNum snap specId path newEntries kept).Holds entriesOf existing contents ↔
      (newEntries.map (assignSequenceNumbers seqNum snap) ++ kept.flatMap entriesOf).Perm contents := by
  have hagree : ∀ t ∈ (planFastAppend seqNum snap specId path newEntries kept).newManifests, t.Agrees := by
    intro t ht
    rw [planFastAppend, List.mem_singleton] at ht
    rw [ht]
    exact newManifestTask_agrees _ _ _ _ _ _
  rw [CommitPlan.holds_iff rfl hkept hagree]
  simp [planFastAppend, newManifestTask]

theorem new_perm_iff : (newEntries.map (assignSequenceNumbers seqNum snap)).Perm (newEntries.map (stamp seqNum snap)) ↔
    ∀ e ∈ newEntries, e.status = .added ∨ Stamped seqNum snap e := by
  have h := @assign_perm_iff seqNum snap [] newEntries
  simpa using h

theorem fast_conserves_iff {path : String} :
    (planFastAppend seqNum snap specId path newEntries existing).Holds entriesOf existing
      (existing.flatMap entriesOf ++ newEntries.map (stamp seqNum snap)) ↔
      ∀ e ∈ newEntries, e.status = .added ∨ Stamped seqNum snap e := by
  rw [fast_holds_iff fun _ h => h, ← new_perm_iff]
  exact ⟨fun h => (List.perm_append_right_iff _).1 (h.trans List.perm_append_comm),
    fun h => (h.append_right _).trans List.perm_append_comm⟩

theorem contents_perm (entriesOf : ManifestFile → List ManifestEntry) (policy : MergePolicy) (specId : Int)
    (existing : List ManifestFile) :
    ((mergeable policy specId existing).flatMap entriesOf ++ (untouched policy specId existing).flatMap entriesOf).Perm
      (existing.flatMap entriesOf) := by
  rw [← List.flatMap_append]
  exact (mergeable_perm policy specId existing).flatMap_right entriesOf

/-- Lists that differ by a common part in their middles. -/
theorem perm_middle_iff {α : Type} {xs ys zs k : List α} : (xs ++ k).Perm ((ys ++ k) ++ zs) ↔ xs.Perm (ys ++ zs) := by
  have hmove : ((ys ++ k) ++ zs).Perm ((ys ++ zs) ++ k) := by
    rw [List.append_assoc, List.append_assoc]
    exact List.perm_append_comm.append_left ys
  exact ⟨fun h => (List.perm_append_right_iff k).1 (h.trans hmove), fun h => (h.append_right k).trans hmove.symm⟩

/-- Below the minimum count the mergeable manifests are lost. -/
theorem few_conserves_iff {path : String} :
    (planFastAppend seqNum snap specId path newEntries (untouched policy specId existing)).Holds entriesOf existing
      (existing.flatMap entriesOf ++ newEntries.map (stamp seqNum snap)) ↔
      (∀ e ∈ newEntries, e.status = .added ∨ Stamped seqNum snap e) ∧
        ∀ mf ∈ mergeable policy specId existing, entriesOf mf = [] := by
  have hcontents := contents_perm entriesOf policy specId existing
  have hmove := hcontents.append_right (newEntries.map (stamp seqNum snap))
  rw [fast_holds_iff fun _ h => untouched_subset h, ← List.flatMap_eq_nil_iff]
  constructor
  · intro h
    have h' := perm_middle_iff.1 (h.trans hmove.symm)
    have hlen := h'.length_eq
    simp only [List.length_map, List.length_append] at hlen
    have hnil : (mergeable policy specId existing).flatMap entriesOf = [] := List.length_eq_zero_iff.1 (by omega)
    rw [hnil, List.nil_append] at h'
    exact ⟨new_perm_iff.1 h', hnil⟩
  · rintro ⟨hnew, hnil⟩
    refine (perm_middle_iff.2 ?_).trans hmove
    rw [hnil, List.nil_append]
    exact new_perm_iff.2 hnew

theorem planAppend_off (h : policy.mergeEnabled = false) : planAppend fuel policy genPath readEntries seqNum snap specId
    newEntries existing = some (.ok (planFastAppend seqNum snap specId (genPath "append" 0) newEntries existing)) := by
  rw [planAppend, h]
  rfl

theorem planAppend_few (h : policy.mergeEnabled = true)
    (hfew : ((mergeable policy specId existing).length : Int) < policy.minCountToMerge) :
    planAppend fuel policy genPath readEntries seqNum snap specId newEntries existing =
      some (.ok (planFastAppend seqNum snap specId (genPath "append" 0) newEntries (untouched policy specId existing))) := by
  rw [mergeable] at hfew
  rw [planAppend, h]
  simp only [List.partition_eq_filter_filter, Bool.not_true, Bool.false_eq_true, if_false]
  rw [if_pos hfew]
  rfl

theorem planAppend_merge (h : policy.mergeEnabled = true)
    (hmany : policy.minCountToMerge ≤ ((mergeable policy specId existing).length : Int))
    (hread : ∀ mf ∈ existing, readEntries mf = .ok (entriesOf mf)) :
    planAppend fuel policy genPath readEntries seqNum snap specId newEntries existing =
      (binPackBySize fuel policy ((newEntries ++ (mergeable policy specId existing).flatMap entriesOf).map
        (assignSequenceNumbers seqNum snap))).map
        fun bins => .ok (binPlan genPath seqNum snap specId (untouched policy specId existing) bins) := by
  have hmap : (mergeable policy specId existing).mapM readEntries = .ok ((mergeable policy specId existing).map entriesOf) :=
    mapM_read fun mf hmf => hread mf (mergeable_subset hmf)
  rw [mergeable] at hmany hmap
  rw [planAppend, h]
  simp only [List.partition_eq_filter_filter, Bool.not_true, Bool.false_eq_true, if_false]
  rw [if_neg (not_lt.2 hmany)]
  simp only [Function.comp_def] at hmap ⊢
  rw [hmap]
  simp only [List.flatten_cons, ← List.flatMap_def, List.append_assoc]
  rfl

/-- **Merge-append holds the contents exactly where it is safe.** -/
theorem append_conserves_iff (hread : ∀ mf ∈ existing, readEntries mf = .ok (entriesOf mf)) :
    Plans (fun fuel => planAppend fuel policy genPath readEntries seqNum snap specId newEntries existing)
      (CommitPlan.Holds entriesOf existing (existing.flatMap entriesOf ++ newEntries.map (stamp seqNum snap))) ↔
      AppendSafe entriesOf policy seqNum snap specId newEntries existing := by
  cases hon : policy.mergeEnabled with
  | false =>
    rw [plans_const fun fuel => planAppend_off hon, fast_conserves_iff]
    have hoff : policy.mergeEnabled ≠ true := by simp [hon]
    exact ⟨fun h => ⟨h, fun hm => absurd hm hoff, fun hm => absurd hm hoff, fun hm => absurd hm hoff⟩, fun h => h.new⟩
  | true =>
    rcases lt_or_ge ((mergeable policy specId existing).length : Int) policy.minCountToMerge with hfew | hmany
    · rw [plans_const fun fuel => planAppend_few hon hfew, few_conserves_iff]
      constructor
      · rintro ⟨hnew, hnil⟩
        exact ⟨hnew, fun _ _ => hnil, fun _ hm => absurd hm (not_le.2 hfew), fun _ hm => absurd hm (not_le.2 hfew)⟩
      · intro h
        exact ⟨h.new, h.few hon hfew⟩
    · rw [plans_bins (fun fuel => planAppend_merge hon hmany hread) fun _ h => untouched_subset h]
      have hcontents := contents_perm entriesOf policy specId existing
      have hmove := hcontents.append_right (newEntries.map (stamp seqNum snap))
      have hperm : ((newEntries ++ (mergeable policy specId existing).flatMap entriesOf).map (assignSequenceNumbers seqNum snap) ++
          (untouched policy specId existing).flatMap entriesOf).Perm
            (existing.flatMap entriesOf ++ newEntries.map (stamp seqNum snap)) ↔
          ((newEntries ++ (mergeable policy specId existing).flatMap entriesOf).map (assignSequenceNumbers seqNum snap)).Perm
            ((mergeable policy specId existing).flatMap entriesOf ++ newEntries.map (stamp seqNum snap)) :=
        ⟨fun h => perm_middle_iff.1 (h.trans hmove.symm), fun h => (perm_middle_iff.2 h).trans hmove⟩
      rw [hperm, assign_perm_iff, List.map_eq_nil_iff, List.append_eq_nil_iff, List.flatMap_eq_nil_iff]
      simp only [List.mem_flatMap]
      constructor
      · rintro ⟨hends, hnew, hold⟩
        exact ⟨hnew, fun _ hm => absurd hm (not_lt.2 hmany), fun _ _ mf hmf e he => hold e ⟨mf, hmf, he⟩, fun _ _ => hends⟩
      · intro h
        exact ⟨h.ends hon hmany, h.new, fun e ⟨mf, hmf, he⟩ => h.merged hon hmany mf hmf e he⟩

/-- **A rewrite holds the contents exactly where it ends.** -/
theorem rewrite_conserves_iff (hread : ∀ mf ∈ toRewrite, readEntries mf = .ok (entriesOf mf)) :
    Plans (fun fuel => planRewriteManifests fuel policy genPath readEntries seqNum snap specId toRewrite keep)
      (CommitPlan.Holds entriesOf keep (toRewrite.flatMap entriesOf ++ keep.flatMap entriesOf)) ↔
      0 < policy.maxFilesPerManifest ∨ ∀ mf ∈ toRewrite, entriesOf mf = [] := by
  have hrun (fuel : Nat) : planRewriteManifests fuel policy genPath readEntries seqNum snap specId toRewrite keep =
      (binPackBySize fuel policy (toRewrite.flatMap entriesOf)).map
        fun bins => .ok (binPlan genPath seqNum snap specId keep bins) := by
    rw [planRewriteManifests, mapM_read hread]
    rfl
  rw [plans_bins hrun fun _ h => h, List.flatMap_eq_nil_iff]
  exact and_iff_left (List.Perm.refl _)

end

/-- **Planning conserves the contents of a table** exactly under these conditions:
    no manifest that could be merged is left out for there being too few, no added
    entry is merged with numbers of an earlier commit, every new entry is an added
    one, and a manifest may hold an entry. -/
theorem planning_conserves {policy : MergePolicy} {genPath : String → Nat → String}
    {readEntries : ManifestFile → Except String (List ManifestEntry)} {entriesOf : ManifestFile → List ManifestEntry}
    {seqNum snap specId : Int} {path : String} {newEntries : List ManifestEntry} {existing toRewrite keep : List ManifestFile}
    (hread : ∀ mf ∈ existing ++ toRewrite, readEntries mf = .ok (entriesOf mf)) :
    ((planFastAppend seqNum snap specId path newEntries existing).Holds entriesOf existing
        (existing.flatMap entriesOf ++ newEntries.map (stamp seqNum snap)) ↔
      ∀ e ∈ newEntries, e.status = .added ∨ Stamped seqNum snap e) ∧
    (Plans (fun fuel => planAppend fuel policy genPath readEntries seqNum snap specId newEntries existing)
        (CommitPlan.Holds entriesOf existing (existing.flatMap entriesOf ++ newEntries.map (stamp seqNum snap))) ↔
      AppendSafe entriesOf policy seqNum snap specId newEntries existing) ∧
    (Plans (fun fuel => planRewriteManifests fuel policy genPath readEntries seqNum snap specId toRewrite keep)
        (CommitPlan.Holds entriesOf keep (toRewrite.flatMap entriesOf ++ keep.flatMap entriesOf)) ↔
      0 < policy.maxFilesPerManifest ∨ ∀ mf ∈ toRewrite, entriesOf mf = []) :=
  ⟨fast_conserves_iff, append_conserves_iff fun mf h => hread mf (List.mem_append_left _ h),
    rewrite_conserves_iff fun mf h => hread mf (List.mem_append_right _ h)⟩

/-! ## A lost manifest -/

def smallEntry : ManifestEntry := ⟨.existing, some 1, some 1, some 1, "a.parquet", .parquetFormat, 1, 4096, none⟩

def newEntry : ManifestEntry := ⟨.added, none, none, none, "b.parquet", .parquetFormat, 1, 4096, none⟩

def smallManifest : ManifestFile :=
  ⟨"m0.avro", 4096, 0, .dataContent, 1, 1, 1, some 0, some 1, some 0, some 0, some 1, some 0, [], none, none⟩

/-- The default policy. -/
def defaultMergePolicy : MergePolicy := ⟨true, 8 * 1024 * 1024, 100, 8192⟩

/-- One small manifest in the table, and the default policy: the append leaves it
    out. -/
theorem append_loses : ¬ Plans (fun fuel => planAppend fuel defaultMergePolicy (fun s _ => s) (fun _ => .ok [smallEntry])
    2 2 0 [newEntry] [smallManifest])
    (CommitPlan.Holds (fun _ => [smallEntry]) [smallManifest] ([smallManifest].flatMap (fun _ => [smallEntry]) ++
      [newEntry].map (stamp 2 2))) := by
  rw [append_conserves_iff fun _ _ => rfl]
  intro h
  have hlost := h.few rfl (by decide) smallManifest List.mem_cons_self
  cases hlost

/-- Where one manifest is enough to merge, the same append holds both entries. -/
theorem planning_conserves_merged :
    Plans (fun fuel => planAppend fuel { defaultMergePolicy with minCountToMerge := 1 } (fun s _ => s)
        (fun _ => .ok [smallEntry]) 2 2 0 [newEntry] [smallManifest])
      (CommitPlan.Holds (fun _ => [smallEntry]) [smallManifest] [smallEntry, stamp 2 2 newEntry]) := by
  have hread : ∀ mf ∈ [smallManifest] ++ [], (Except.ok [smallEntry] : Except String (List ManifestEntry)) =
      .ok ((fun _ => [smallEntry]) mf) := fun _ _ => rfl
  have h := @planning_conserves { defaultMergePolicy with minCountToMerge := 1 } (fun s _ => s) (fun _ => .ok [smallEntry])
    (fun _ => [smallEntry]) 2 2 0 "p" [newEntry] [smallManifest] [] [] hread
  refine h.2.1.2 ⟨?_, ?_, ?_, fun _ _ => Or.inl (by decide)⟩
  · intro e he
    rw [List.mem_singleton.1 he]
    exact Or.inl rfl
  · intro _ hfew
    exact absurd hfew (by decide)
  · intro _ _ mf _ e he hadd
    rw [List.mem_singleton.1 he] at hadd
    cases hadd

end Wireform.Iceberg

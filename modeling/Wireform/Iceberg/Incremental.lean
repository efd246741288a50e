/-
  Incremental scans (`Iceberg.Read`).

  * `collectSnapsBetween`: the snapshots after `from` up to `to`, from child to parent;
  * `planIncrementalAppend`, `planIncrementalChangelog`: the plans of such a range;
  * `Commit`, `Built`: a history in which every manifest list carries on the earlier manifests;
  * `ScansExact`: every change of a range is reported once, and a range can be split;
  * `scans_exact_iff`: the ranges of which this is so.
-/
import Wireform.Iceberg.Scan
import Wireform.Fallible
import Mathlib.Data.List.Perm.Basic
import Mathlib.Data.List.TakeWhile

namespace Wireform.Iceberg

structure IncrementalScanPlan where
  ispFromSnapshot : Option Int
  ispToSnapshot : Int
  ispAddedFiles : List FileScanTask

inductive ChangelogOp where
  | opInsert | opDelete | opUpdateBefore | opUpdateAfter
deriving DecidableEq

structure ChangelogTask where
  ctEntry : ManifestEntry
  ctOperation : ChangelogOp
  ctSnapshot : Snapshot

/-- The walk along the parents; `none` is a walk that was cut off. -/
def collectSnapsBetween (tm : TableMetadata) (fromSid : Option Int) : Nat → Snapshot → Option (List Snapshot)
  | 0, _ => none
  | fuel + 1, s =>
    if fromSid = some s.snapId then some []
    else
      match s.snapParentId.bind (snapshotById tm) with
      | none => some [s]
      | some parent => (collectSnapsBetween tm fromSid fuel parent).map fun snaps => s :: snaps

/-! ## Plans -/

/-- The Avro reader, and the reads of a list and of a manifest by their paths. -/
structure ScanReaders where
  avro : ManifestReader
  readMlByPath : String → Except String ByteString
  readManifestByPath : String → Except String ByteString

section
variable (rd : ScanReaders) (tm : TableMetadata)

/-- The entry was added by one of the snapshots. -/
def keepAdded (snapIds : List Int) (me : ManifestEntry) : Bool :=
  match me.snapshotId with
  | some s => decide (me.status = .added) && snapIds.contains s
  | none => false

def appendTaskFor (snapIds : List Int) (snap : Snapshot) : Except String (List ManifestEntry) := do
  let bs ← rd.readMlByPath snap.snapManifestList
  let mfs ← rd.avro.readManifestList bs
  let dataMfs := mfs.filter fun mf => mf.content = .dataContent
  let entryVecs ← dataMfs.mapM (readAndInherit rd.avro rd.readManifestByPath)
  return entryVecs.flatten.filter (keepAdded snapIds)

def appendTask (me : ManifestEntry) : FileScanTask := ⟨me, [], 0⟩

def planIncrementalAppend (fuel : Nat) (fromSid : Option Int) (toSid : Int) :
    Option (Except String IncrementalScanPlan) :=
  match snapshotById tm toSid with
  | none => some (.error ("planIncrementalAppend: no snapshot " ++ toString toSid))
  | some toSnap =>
    (collectSnapsBetween tm fromSid fuel toSnap).map fun snapsInRange => do
      let perSnap ← snapsInRange.mapM (appendTaskFor rd (snapsInRange.map Snapshot.snapId))
      return ⟨fromSid, toSid, perSnap.flatten.map appendTask⟩

def mkTask (snap : Snapshot) (me : ManifestEntry) : Option ChangelogTask :=
  match me.status with
  | .added => some ⟨me, .opInsert, snap⟩
  | .deleted => some ⟨me, .opDelete, snap⟩
  | .existing => none

def changelogTaskFor (snap : Snapshot) : Except String (List ChangelogTask) := do
  let bs ← rd.readMlByPath snap.snapManifestList
  let mfs ← rd.avro.readManifestList bs
  let entryVecs ← mfs.mapM (readAndInherit rd.avro rd.readManifestByPath)
  return entryVecs.flatten.filterMap (mkTask snap)

def planIncrementalChangelog (fuel : Nat) (fromSid : Option Int) (toSid : Int) :
    Option (Except String (List ChangelogTask)) :=
  match snapshotById tm toSid with
  | none => some (.error ("planIncrementalChangelog: no snapshot " ++ toString toSid))
  | some toSnap =>
    (collectSnapsBetween tm fromSid fuel toSnap).map fun snapsInRange => do
      let vs ← snapsInRange.mapM (changelogTaskFor rd)
      return vs.flatten

/-! ## Histories -/

/-- A snapshot, the manifests that are new with it, and its manifest list. -/
structure Commit where
  snap : Snapshot
  added : List ManifestFile
  listed : List ManifestFile

/-- The entries of a manifest. -/
def contents (m : ManifestFile) : List ManifestEntry :=
  (readAndInherit rd.avro rd.readManifestByPath m).toOption.getD []

/-- The entries of the data manifests of a commit. -/
def Commit.dataEntries (c : Commit) : List ManifestEntry :=
  (c.added.filter fun mf => mf.content = .dataContent).flatMap (contents rd)

/-- The data files that a commit adds. -/
def Commit.addedFiles (c : Commit) : List ManifestEntry :=
  (c.dataEntries rd).filter fun me => me.status = .added

/-- The data files that it adds and deletes, under its own snapshot. -/
def Commit.changes (c : Commit) : List ChangelogTask :=
  (c.dataEntries rd).filterMap (mkTask c.snap)

/-- A commit on top of a history.  An added entry has the id of the snapshot, or none: it is to inherit it. -/
structure Extends (c : Commit) (cs : List Commit) : Prop where
  found : snapshotById tm c.snap.snapId = some c.snap
  parent : c.snap.snapParentId = cs.head?.map fun p => p.snap.snapId
  fresh : ∀ p ∈ cs, p.snap.snapId ≠ c.snap.snapId
  list : rd.readMlByPath c.snap.snapManifestList >>= rd.avro.readManifestList = .ok c.listed
  /-- the list is of the new manifests and the earlier ones -/
  carries : c.listed.Perm (c.added ++ (cs.head?.map Commit.listed).getD [])
  reads : ∀ m ∈ c.added, ∃ es, readAndInherit rd.avro rd.readManifestByPath m = .ok es
  stamped : ∀ m ∈ c.added, ∀ me ∈ contents rd m, me.status = .added →
    me.snapshotId = none ∨ me.snapshotId = some c.snap.snapId

/-- A history, the latest commit first. -/
inductive Built : List Commit → Prop
  | nil : Built []
  | cons {c : Commit} {cs : List Commit} (ext : Extends rd tm c cs) (h : Built cs) :
      Built (c :: cs)

/-- The commits after `from`. -/
def inRange (fromSid : Option Int) (cs : List Commit) : List Commit :=
  cs.takeWhile fun c => fromSid ≠ some c.snap.snapId

/-- The plan of a range is of these files. -/
def Appends (fromSid : Option Int) (toSid : Int) (files : List ManifestEntry) : Prop :=
  ∃ n, ∀ fuel, n ≤ fuel → planIncrementalAppend rd tm fuel fromSid toSid =
    some (.ok ⟨fromSid, toSid, files.map appendTask⟩)

def Changes (fromSid : Option Int) (toSid : Int) (tasks : List ChangelogTask) : Prop :=
  ∃ n, ∀ fuel, n ≤ fuel → planIncrementalChangelog rd tm fuel fromSid toSid =
    some (.ok tasks)

/-- Every change of the range is reported once, and the range can be split. -/
structure ScansExact (fromSid : Option Int) (c : Commit) (cs : List Commit) : Prop where
  append : ∃ files, Appends rd tm fromSid c.snap.snapId files ∧
    files.Perm ((inRange fromSid (c :: cs)).flatMap (Commit.addedFiles rd))
  changelog : ∃ tasks, Changes rd tm fromSid c.snap.snapId tasks ∧
    tasks.Perm ((inRange fromSid (c :: cs)).flatMap (Commit.changes rd))
  splitAppend : ∀ p ∈ inRange fromSid (c :: cs), ∃ fs gs files,
    Appends rd tm fromSid p.snap.snapId fs ∧
    Appends rd tm (some p.snap.snapId) c.snap.snapId gs ∧
    Appends rd tm fromSid c.snap.snapId files ∧ (fs ++ gs).Perm files
  splitChangelog : ∀ p ∈ inRange fromSid (c :: cs), ∃ fs gs tasks,
    Changes rd tm fromSid p.snap.snapId fs ∧
    Changes rd tm (some p.snap.snapId) c.snap.snapId gs ∧
    Changes rd tm fromSid c.snap.snapId tasks ∧ (fs ++ gs).Perm tasks

/-- All the changes that the latest manifest list shows are of the latest commit and its data manifests, and the
    files it adds have its id. -/
structure OnlyLatest (c : Commit) (cs : List Commit) : Prop where
  earlier : ∀ d ∈ cs, ∀ m ∈ d.added, ∀ me ∈ contents rd m, me.status = .existing
  deletes : ∀ m ∈ c.added, m.content ≠ .dataContent → ∀ me ∈ contents rd m, me.status = .existing
  stamped : ∀ m ∈ c.added, ∀ me ∈ contents rd m, me.status = .added → me.snapshotId ≠ none

end

section
variable {rd : ScanReaders} {tm : TableMetadata}
  {c : Commit} {cs : List Commit} {fromSid : Option Int}

/-! ## What a commit lists -/

/-- The manifest list of the latest commit has all the manifests of the history. -/
theorem Built.listed (h : Built rd tm (c :: cs)) :
    c.listed.Perm ((c :: cs).flatMap Commit.added) := by
  induction cs generalizing c with
  | nil =>
    cases h with
    | cons ext _ => simpa using ext.carries
  | cons p cs ih =>
    cases h with
    | cons ext h =>
      rw [List.flatMap_cons]
      exact ext.carries.trans ((ih h).append_left _)

theorem Built.reads (h : Built rd tm cs) :
    ∀ m ∈ cs.flatMap Commit.added, readAndInherit rd.avro rd.readManifestByPath m = .ok (contents rd m) := by
  induction h with
  | nil => exact fun _ hm => absurd hm List.not_mem_nil
  | cons ext _ ih =>
    intro m hm
    rw [List.flatMap_cons, List.mem_append] at hm
    rcases hm with hm | hm
    · obtain ⟨es, hes⟩ := ext.reads m hm
      rw [contents, hes]
      rfl
    · exact ih m hm

theorem mapM_of_forall {α β : Type} {f : α → Except String β} {g : α → β} {xs : List α}
    (h : ∀ x ∈ xs, f x = .ok (g x)) :
    xs.mapM f = .ok (xs.map g) := mapM_ok.2 (List.forall₂_map_right_iff.2 (List.forall₂_same.2 h))

theorem Built.mapM (h : Built rd tm (c :: cs)) {mfs : List ManifestFile}
    (hsub : ∀ m ∈ mfs, m ∈ c.listed) : mfs.mapM (readAndInherit rd.avro rd.readManifestByPath) =
      .ok (mfs.map (contents rd)) :=
  mapM_of_forall fun m hm => h.reads m (h.listed.mem_iff.1 (hsub m hm))

/-- Where the list of a snapshot is read. -/
theorem Extends.read (ext : Extends rd tm c cs) : ∃ bs,
    rd.readMlByPath c.snap.snapManifestList = .ok bs ∧ rd.avro.readManifestList bs = .ok c.listed := bind_ok.1 ext.list

/-! ## The walk -/

/-- The commit of every snapshot of the range, with the commits before it. -/
def positions (fromSid : Option Int) : List Commit → List (Commit × List Commit)
  | [] => []
  | c :: cs => if fromSid = some c.snap.snapId then [] else (c, cs) :: positions fromSid cs

theorem map_positions (fromSid : Option Int) (cs : List Commit) :
    (positions fromSid cs).map Prod.fst = inRange fromSid cs := by
  induction cs with
  | nil => rfl
  | cons c cs ih =>
    rw [positions, inRange, List.takeWhile_cons]
    by_cases h : fromSid = some c.snap.snapId
    · simp [h]
    · rw [if_neg h, if_pos (by simpa using h), List.map_cons, ih]
      rfl

theorem Built.positions (h : Built rd tm cs) {p : Commit × List Commit}
    (hp : p ∈ positions fromSid cs) : Built rd tm (p.1 :: p.2) := by
  induction h with
  | nil => cases hp
  | cons ext h ih =>
    rw [Iceberg.positions] at hp
    split_ifs at hp
    · cases hp
    · rcases List.mem_cons.1 hp with rfl | hp
      · exact .cons ext h
      · exact ih hp

theorem Built.ext (h : Built rd tm (c :: cs)) :
    Extends rd tm c cs := by
  cases h with
  | cons ext _ => exact ext

theorem Built.tail (h : Built rd tm (c :: cs)) :
    Built rd tm cs := by
  cases h with
  | cons _ h => exact h

/-- **The walk ends** and finds the snapshots of the range. -/
theorem Built.collect (h : Built rd tm (c :: cs)) (fromSid : Option Int) {fuel : Nat}
    (hf : cs.length < fuel) : collectSnapsBetween tm fromSid fuel c.snap =
      some ((inRange fromSid (c :: cs)).map Commit.snap) := by
  induction cs generalizing c fuel with
  | nil =>
    obtain ⟨n, rfl⟩ : ∃ n, fuel = n + 1 := ⟨fuel - 1, by omega⟩
    rw [collectSnapsBetween, h.ext.parent, inRange, List.takeWhile_cons]
    by_cases hfrom : fromSid = some c.snap.snapId
    · simp [hfrom]
    · simp [hfrom]
  | cons p cs ih =>
    obtain ⟨n, rfl⟩ : ∃ n, fuel = n + 1 := ⟨fuel - 1, by omega⟩
    rw [collectSnapsBetween, h.ext.parent, inRange, List.takeWhile_cons]
    by_cases hfrom : fromSid = some c.snap.snapId
    · simp [hfrom]
    · have hn : (p :: cs).length < n + 1 := hf
      rw [if_neg hfrom, if_pos (by simpa using hfrom)]
      simp only [List.head?_cons, Option.map_some, Option.bind_some, h.tail.ext.found]
      rw [ih h.tail (by simp only [List.length_cons] at hn; omega)]
      rfl

/-- The plans of a range, by what is read for every snapshot of it. -/
theorem mapM_inRange {β : Type} {taskFor : Snapshot → Except String (List β)} {g : Commit × List Commit → List β}
    (htask : ∀ p ∈ Iceberg.positions fromSid (c :: cs), taskFor p.1.snap = .ok (g p)) :
    ((inRange fromSid (c :: cs)).map Commit.snap).mapM taskFor = .ok ((Iceberg.positions fromSid (c :: cs)).map g) := by
  rw [← map_positions, List.map_map]
  refine mapM_ok.2 (List.forall₂_map_right_iff.2 (List.forall₂_map_left_iff.2 (List.forall₂_same.2 htask)))

/-! ## The plans -/

/-- What the append scan reads for a commit. -/
def appendBlock (rd : ScanReaders) (snapIds : List Int)
    (c : Commit) : List ManifestEntry :=
  ((c.listed.filter fun mf => mf.content = .dataContent).flatMap (contents rd)).filter
    (keepAdded snapIds)

/-- What the changelog scan reads. -/
def changeBlock (rd : ScanReaders) (c : Commit) :
    List ChangelogTask := (c.listed.flatMap (contents rd)).filterMap (mkTask c.snap)

def rangeIds (fromSid : Option Int) (cs : List Commit) : List Int := (inRange fromSid cs).map fun c => c.snap.snapId

theorem appends (h : Built rd tm (c :: cs)) (fromSid : Option Int) :
    Appends rd tm fromSid c.snap.snapId ((positions fromSid (c :: cs)).flatMap
      fun p => appendBlock rd (rangeIds fromSid (c :: cs)) p.1) := by
  refine ⟨cs.length + 1, fun fuel hf => ?_⟩
  have htask : ∀ p ∈ positions fromSid (c :: cs), appendTaskFor rd
      (rangeIds fromSid (c :: cs)) p.1.snap = .ok (appendBlock rd (rangeIds fromSid (c :: cs)) p.1) := by
    intro p hp
    have hb := h.positions hp
    obtain ⟨bs, hbs, hlist⟩ := hb.ext.read
    refine bind_ok.2 ⟨bs, hbs, bind_ok.2 ⟨_, hlist, bind_ok.2 ⟨_, hb.mapM fun m hm => List.mem_of_mem_filter hm, ?_⟩⟩⟩
    rw [appendBlock, List.flatMap_def]
    rfl
  have hids : ((inRange fromSid (c :: cs)).map Commit.snap).map Snapshot.snapId = rangeIds fromSid (c :: cs) := by
    rw [List.map_map]
    rfl
  rw [planIncrementalAppend, h.ext.found]
  simp only [h.collect fromSid hf, Option.map_some, hids]
  rw [mapM_inRange htask, List.flatMap_def]
  rfl

theorem changed (h : Built rd tm (c :: cs)) (fromSid : Option Int) :
    Changes rd tm fromSid c.snap.snapId ((positions fromSid (c :: cs)).flatMap
      fun p => changeBlock rd p.1) := by
  refine ⟨cs.length + 1, fun fuel hf => ?_⟩
  have htask : ∀ p ∈ positions fromSid (c :: cs), changelogTaskFor rd p.1.snap =
      .ok (changeBlock rd p.1) := by
    intro p hp
    have hb := h.positions hp
    obtain ⟨bs, hbs, hlist⟩ := hb.ext.read
    refine bind_ok.2 ⟨bs, hbs, bind_ok.2 ⟨_, hlist, bind_ok.2 ⟨_, hb.mapM fun m hm => hm, ?_⟩⟩⟩
    rw [changeBlock, List.flatMap_def]
    rfl
  rw [planIncrementalChangelog, h.ext.found]
  simp only [h.collect fromSid hf, Option.map_some]
  rw [mapM_inRange htask, List.flatMap_def]
  rfl

theorem mkTask_none {s : Snapshot} {me : ManifestEntry} : mkTask s me = none ↔ me.status = .existing := by
  unfold mkTask
  cases me.status <;> simp

/-- A manifest with nothing but existing entries. -/
theorem filterMap_existing (s : Snapshot) {ms : List ManifestFile}
    (h : ∀ m ∈ ms, ∀ me ∈ contents rd m, me.status = .existing) :
    (ms.flatMap (contents rd)).filterMap (mkTask s) = [] := by
  refine List.filterMap_eq_nil_iff.2 fun me hme => ?_
  obtain ⟨m, hm, hme⟩ := List.mem_flatMap.1 hme
  exact mkTask_none.2 (h m hm me hme)

theorem existing_of_filterMap {s : Snapshot} {ms : List ManifestFile}
    (h : (ms.flatMap (contents rd)).filterMap (mkTask s) = []) :
    ∀ m ∈ ms, ∀ me ∈ contents rd m, me.status = .existing := fun m hm me hme =>
  mkTask_none.1 (List.filterMap_eq_nil_iff.1 h me (List.mem_flatMap.2 ⟨m, hm, hme⟩))

/-- The changes that are read for a commit: its own, those of its delete manifests, and the earlier ones. -/
theorem changeBlock_perm (h : Built rd tm (c :: cs)) :
    (changeBlock rd c).Perm (c.changes rd ++
      ((c.added.filter fun mf => ¬mf.content = .dataContent).flatMap (contents rd)).filterMap
        (mkTask c.snap) ++
      ((cs.flatMap Commit.added).flatMap (contents rd)).filterMap (mkTask c.snap)) := by
  have hlisted : (c.listed.flatMap (contents rd)).Perm
      ((c.added ++ cs.flatMap Commit.added).flatMap (contents rd)) := h.listed.flatMap_right _
  have hown : c.added.Perm ((c.added.filter fun mf => mf.content = .dataContent) ++
      c.added.filter fun mf => ¬mf.content = .dataContent) := by
    simpa using (List.filter_append_perm (fun mf : ManifestFile => decide (mf.content = .dataContent)) c.added).symm
  refine (hlisted.filterMap _).trans ?_
  rw [List.flatMap_append, List.filterMap_append]
  refine List.Perm.append_right _ ?_
  rw [Commit.changes, Commit.dataEntries, ← List.filterMap_append, ← List.flatMap_append]
  exact (hown.flatMap_right _).filterMap _

/-- The files that are read for a commit: those of the commits since then whose id is one of `snapIds`. -/
theorem appendBlock_perm (h : Built rd tm (c :: cs)) (snapIds : List Int) :
    (appendBlock rd snapIds c).Perm
      ((c :: cs).flatMap fun d => (d.dataEntries rd).filter (keepAdded snapIds)) := by
  have heq : ((((c :: cs).flatMap Commit.added).filter fun mf => mf.content = .dataContent).flatMap
      (contents rd)).filter (keepAdded snapIds) =
      (c :: cs).flatMap fun d => (d.dataEntries rd).filter (keepAdded snapIds) := by
    simp only [Commit.dataEntries, List.filter_flatMap, List.flatMap_assoc]
  rw [← heq]
  exact ((h.listed.filter _).flatMap_right _).filter _

theorem status_of_kept {snapIds : List Int} {me : ManifestEntry} (h : keepAdded snapIds me = true) :
    me.status = .added ∧ ∃ sid ∈ snapIds, me.snapshotId = some sid := by
  unfold keepAdded at h
  split at h
  · rename_i sid hsid
    simp only [Bool.and_eq_true, decide_eq_true_eq, List.contains_iff_mem] at h
    exact ⟨h.1, sid, h.2, hsid⟩
  · cases h

/-! ## Ranges in which only the latest commit changes something -/

theorem dataEntries_of_existing (h : ∀ m ∈ c.added, ∀ me ∈ contents rd m, me.status = .existing) :
    ∀ me ∈ c.dataEntries rd, me.status = .existing := by
  intro me hme
  obtain ⟨m, hm, hme⟩ := List.mem_flatMap.1 hme
  exact h m (List.mem_of_mem_filter hm) me hme

theorem positions_cons (hfrom : fromSid ≠ some c.snap.snapId) :
    positions fromSid (c :: cs) = (c, cs) :: positions fromSid cs := if_neg hfrom

theorem inRange_cons (hfrom : fromSid ≠ some c.snap.snapId) :
    inRange fromSid (c :: cs) = c :: inRange fromSid cs := by
  rw [inRange, List.takeWhile_cons, if_pos (by simpa using hfrom)]
  rfl

theorem mem_of_positions {p : Commit × List Commit} (hp : p ∈ positions fromSid cs) : p.1 ∈ cs ∧ ∀ d ∈ p.2, d ∈ cs := by
  induction cs with
  | nil => cases hp
  | cons c cs ih =>
    rw [positions] at hp
    split_ifs at hp
    · cases hp
    · rcases List.mem_cons.1 hp with rfl | hp
      · exact ⟨List.mem_cons_self, fun d hd => List.mem_cons_of_mem _ hd⟩
      · obtain ⟨h1, h2⟩ := ih hp
        exact ⟨List.mem_cons_of_mem _ h1, fun d hd => List.mem_cons_of_mem _ (h2 d hd)⟩

/-- Nothing is kept of a commit without changes. -/
theorem filter_keep_existing {d : Commit} (snapIds : List Int)
    (h : ∀ m ∈ d.added, ∀ me ∈ contents rd m, me.status = .existing) :
    (d.dataEntries rd).filter (keepAdded snapIds) = [] := by
  refine List.filter_eq_nil_iff.2 fun me hme hk => ?_
  have := dataEntries_of_existing h me hme
  rw [(status_of_kept hk).1] at this
  cases this

/-- The latest commit's files, each once. -/
theorem OnlyLatest.appendBlock (hl : OnlyLatest rd c cs)
    (h : Built rd tm (c :: cs)) {snapIds : List Int} (hid : c.snap.snapId ∈ snapIds) :
    (Iceberg.appendBlock rd snapIds c).Perm (c.addedFiles rd) := by
  have hnil : cs.flatMap (fun d => (d.dataEntries rd).filter (keepAdded snapIds)) = [] :=
    List.flatMap_eq_nil_iff.2 fun d hd => filter_keep_existing snapIds (hl.earlier d hd)
  refine (appendBlock_perm h snapIds).trans ?_
  rw [List.flatMap_cons, hnil, List.append_nil, Commit.addedFiles]
  refine List.Perm.of_eq (List.filter_congr fun me hme => ?_)
  obtain ⟨m, hm, hme⟩ := List.mem_flatMap.1 hme
  have hmem := List.mem_of_mem_filter hm
  unfold keepAdded
  by_cases hadd : me.status = .added
  · have hsome := (h.ext.stamped m hmem me hme hadd).resolve_left (hl.stamped m hmem me hme hadd)
    simp [hsome, hadd, hid]
  · cases me.snapshotId <;> simp [hadd]

/-- A block without changes is empty. -/
theorem appendBlock_existing (h : Built rd tm (c :: cs)) (snapIds : List Int)
    (hex : ∀ d ∈ c :: cs, ∀ m ∈ d.added, ∀ me ∈ contents rd m, me.status = .existing) :
    Iceberg.appendBlock rd snapIds c = [] := by
  refine List.perm_nil.1 ((appendBlock_perm h snapIds).trans (List.Perm.of_eq ?_))
  exact List.flatMap_eq_nil_iff.2 fun d hd => filter_keep_existing snapIds (hex d hd)

theorem changeBlock_existing (h : Built rd tm (c :: cs))
    (hex : ∀ d ∈ c :: cs, ∀ m ∈ d.added, ∀ me ∈ contents rd m, me.status = .existing) :
    changeBlock rd c = [] := by
  refine List.perm_nil.1 ((h.listed.flatMap_right _).filterMap _ |>.trans (List.Perm.of_eq ?_))
  refine filterMap_existing _ fun m hm => ?_
  obtain ⟨d, hd, hm⟩ := List.mem_flatMap.1 hm
  exact hex d hd m hm

theorem OnlyLatest.changeBlock (hl : OnlyLatest rd c cs)
    (h : Built rd tm (c :: cs)) :
    (Iceberg.changeBlock rd c).Perm (c.changes rd) := by
  refine (changeBlock_perm h).trans (List.Perm.of_eq ?_)
  rw [filterMap_existing c.snap fun m hm => ?_, filterMap_existing c.snap fun m hm => ?_,
    List.append_nil, List.append_nil]
  · obtain ⟨d, hd, hm⟩ := List.mem_flatMap.1 hm
    exact hl.earlier d hd m hm
  · rw [List.mem_filter] at hm
    exact hl.deletes m hm.1 (by simpa using hm.2)

/-- What the two scans report up to a latest commit that alone changes something. -/
theorem OnlyLatest.scans (hl : OnlyLatest rd c cs)
    (h : Built rd tm (c :: cs)) (hfrom : fromSid ≠ some c.snap.snapId) :
    (∃ files, Appends rd tm fromSid c.snap.snapId files ∧
      files.Perm (c.addedFiles rd)) ∧
    ∃ tasks, Changes rd tm fromSid c.snap.snapId tasks ∧
      tasks.Perm (c.changes rd) := by
  have hex : ∀ p ∈ positions fromSid cs, ∀ d ∈ p.1 :: p.2, ∀ m ∈ d.added, ∀ me ∈ contents rd m,
      me.status = .existing := by
    intro p hp d hd
    obtain ⟨h1, h2⟩ := mem_of_positions hp
    rcases List.mem_cons.1 hd with rfl | hd
    · exact hl.earlier _ h1
    · exact hl.earlier d (h2 d hd)
  refine ⟨⟨_, appends h fromSid, ?_⟩, _, changed h fromSid, ?_⟩
  · have hid : c.snap.snapId ∈ rangeIds fromSid (c :: cs) := by
      rw [rangeIds, inRange_cons hfrom]
      exact List.mem_cons_self
    rw [positions_cons hfrom, List.flatMap_cons,
      List.flatMap_eq_nil_iff.2 fun p hp => appendBlock_existing (h.tail.positions hp) _ (hex p hp), List.append_nil]
    exact hl.appendBlock h hid
  · rw [positions_cons hfrom, List.flatMap_cons,
      List.flatMap_eq_nil_iff.2 fun p hp => changeBlock_existing (h.tail.positions hp) (hex p hp), List.append_nil]
    exact hl.changeBlock h

theorem scans_empty (h : Built rd tm (c :: cs)) :
    Appends rd tm (some c.snap.snapId) c.snap.snapId [] ∧
      Changes rd tm (some c.snap.snapId) c.snap.snapId [] := by
  have hpos : positions (some c.snap.snapId) (c :: cs) = [] := if_pos rfl
  have ha := appends h (some c.snap.snapId)
  have hc := changed h (some c.snap.snapId)
  rw [hpos] at ha hc
  exact ⟨ha, hc⟩

/-- A plan is of one list of files. -/
theorem Appends.unique {toSid : Int} {files files' : List ManifestEntry}
    (h : Appends rd tm fromSid toSid files)
    (h' : Appends rd tm fromSid toSid files') : files = files' := by
  obtain ⟨n, hn⟩ := h
  obtain ⟨n', hn'⟩ := h'
  have heq := (hn (max n n') (le_max_left _ _)).symm.trans (hn' (max n n') (le_max_right _ _))
  simp only [Option.some.injEq, Except.ok.injEq, IncrementalScanPlan.mk.injEq, true_and] at heq
  exact List.map_injective_iff.2 (fun _ _ hmk => congrArg FileScanTask.fstDataFile hmk) heq

theorem Changes.unique {toSid : Int} {tasks tasks' : List ChangelogTask}
    (h : Changes rd tm fromSid toSid tasks)
    (h' : Changes rd tm fromSid toSid tasks') : tasks = tasks' := by
  obtain ⟨n, hn⟩ := h
  obtain ⟨n', hn'⟩ := h'
  have heq := (hn (max n n') (le_max_left _ _)).symm.trans (hn' (max n n') (le_max_right _ _))
  exact Except.ok.inj (Option.some.inj heq)

/-- A commit that the history leaves alone is the latest of its own history. -/
theorem OnlyLatest.sub (hl : OnlyLatest rd c cs) {p : Commit × List Commit}
    (hp : p ∈ positions fromSid cs) : OnlyLatest rd p.1 p.2 := by
  obtain ⟨h1, h2⟩ := mem_of_positions hp
  exact
    { earlier := fun d hd => hl.earlier d (h2 d hd)
      deletes := fun m hm _ => hl.earlier p.1 h1 m hm
      stamped := fun m hm me hme hadd => by
        rw [hl.earlier p.1 h1 m hm me hme] at hadd
        cases hadd }

theorem exists_position {d : Commit} (hd : d ∈ inRange fromSid cs) : ∃ p ∈ positions fromSid cs, p.1 = d := by
  rw [← map_positions] at hd
  exact List.mem_map.1 hd

/-- Nothing of a commit whose entries are all existing. -/
theorem changes_existing {d : Commit} (h : ∀ m ∈ d.added, ∀ me ∈ contents rd m, me.status = .existing) :
    d.addedFiles rd = [] ∧ d.changes rd = [] := by
  refine ⟨List.filter_eq_nil_iff.2 fun me hme hadd => ?_, List.filterMap_eq_nil_iff.2 fun me hme => ?_⟩
  · rw [dataEntries_of_existing h me hme] at hadd
    exact absurd hadd (by decide)
  · exact mkTask_none.2 (dataEntries_of_existing h me hme)

theorem OnlyLatest.exact (hl : OnlyLatest rd c cs)
    (h : Built rd tm (c :: cs)) (hfrom : fromSid ≠ some c.snap.snapId) :
    ScansExact rd tm fromSid c cs := by
  obtain ⟨⟨files, hfiles, hpf⟩, tasks, htasks, hpt⟩ := hl.scans h hfrom
  have hquiet : ∀ d ∈ inRange fromSid cs, d.addedFiles rd = [] ∧ d.changes rd = [] :=
    fun d hd => changes_existing (hl.earlier d (List.takeWhile_subset _ hd))
  -- the part up to a commit of the range, and the part after it
  have hsplit : ∀ d ∈ inRange fromSid (c :: cs), (∃ fs gs, Appends rd tm fromSid d.snap.snapId fs ∧
      Appends rd tm (some d.snap.snapId) c.snap.snapId gs ∧
      (fs ++ gs).Perm (c.addedFiles rd)) ∧
      ∃ fs gs, Changes rd tm fromSid d.snap.snapId fs ∧
      Changes rd tm (some d.snap.snapId) c.snap.snapId gs ∧
      (fs ++ gs).Perm (c.changes rd) := by
    intro d hd
    rw [inRange_cons hfrom] at hd
    rcases List.mem_cons.1 hd with rfl | hd
    · obtain ⟨ha, hc⟩ := scans_empty h
      exact ⟨⟨files, [], hfiles, ha, by rwa [List.append_nil]⟩, tasks, [], htasks, hc, by rwa [List.append_nil]⟩
    · obtain ⟨p, hp, rfl⟩ := exists_position hd
      obtain ⟨hnofiles, hnotasks⟩ := hquiet p.1 hd
      have hp' := h.tail.positions hp
      have hne : p.1.snap.snapId ≠ c.snap.snapId := h.ext.fresh p.1 (mem_of_positions hp).1
      have hfrom' : fromSid ≠ some p.1.snap.snapId := by
        have := List.mem_takeWhile_imp hd
        simpa using this
      obtain ⟨⟨fs, hfs, hpfs⟩, ts, hts, hpts⟩ := (hl.sub hp).scans hp' hfrom'
      have hsome : some p.1.snap.snapId ≠ some c.snap.snapId := fun heq => hne (Option.some.inj heq)
      obtain ⟨⟨gs, hgs, hpgs⟩, us, hus, hpus⟩ := hl.scans h hsome
      rw [hnofiles] at hpfs
      rw [hnotasks] at hpts
      rw [List.perm_nil.1 hpfs] at hfs
      rw [List.perm_nil.1 hpts] at hts
      exact ⟨⟨[], gs, hfs, hgs, hpgs⟩, [], us, hts, hus, hpus⟩
  have hrange : (inRange fromSid (c :: cs)).flatMap (Commit.addedFiles rd) =
      c.addedFiles rd := by
    rw [inRange_cons hfrom, List.flatMap_cons, List.flatMap_eq_nil_iff.2 fun d hd => (hquiet d hd).1, List.append_nil]
  have hrange' : (inRange fromSid (c :: cs)).flatMap (Commit.changes rd) =
      c.changes rd := by
    rw [inRange_cons hfrom, List.flatMap_cons, List.flatMap_eq_nil_iff.2 fun d hd => (hquiet d hd).2, List.append_nil]
  exact
    { append := ⟨files, hfiles, hrange.symm ▸ hpf⟩
      changelog := ⟨tasks, htasks, hrange'.symm ▸ hpt⟩
      splitAppend := fun d hd => by
        obtain ⟨⟨fs, gs, hfs, hgs, hp⟩, -⟩ := hsplit d hd
        exact ⟨fs, gs, files, hfs, hgs, hfiles, hp.trans hpf.symm⟩
      splitChangelog := fun d hd => by
        obtain ⟨-, fs, gs, hfs, hgs, hp⟩ := hsplit d hd
        exact ⟨fs, gs, tasks, hfs, hgs, htasks, hp.trans hpt.symm⟩ }

/-! ## The other ranges -/

/-- A block is no shorter than the commit's own changes. -/
theorem length_changes_le (h : Built rd tm cs) :
    ((inRange fromSid cs).flatMap (Commit.changes rd)).length ≤
      ((positions fromSid cs).flatMap fun p => changeBlock rd p.1).length := by
  induction h with
  | nil => exact le_rfl
  | @cons c cs ext h ih =>
    by_cases hfrom : fromSid = some c.snap.snapId
    · rw [inRange, List.takeWhile_cons, if_neg (by simpa using hfrom)]
      exact Nat.zero_le _
    · have hblock := (changeBlock_perm (.cons ext h)).length_eq
      rw [inRange_cons hfrom, positions_cons hfrom, List.flatMap_cons, List.flatMap_cons, List.length_append,
        List.length_append]
      simp only [List.length_append] at hblock ⊢
      omega

theorem ScansExact.onlyLatest (he : ScansExact rd tm fromSid c cs)
    (h : Built rd tm (c :: cs)) (hfrom : fromSid ≠ some c.snap.snapId) :
    OnlyLatest rd c cs := by
  obtain ⟨files, hfiles, hpf⟩ := he.append
  obtain ⟨tasks, htasks, hpt⟩ := he.changelog
  obtain rfl := hfiles.unique (appends h fromSid)
  obtain rfl := htasks.unique (changed h fromSid)
  -- the block of the latest commit has its own changes only
  have hlen := hpt.length_eq
  have hrest := @length_changes_le _ _ _ fromSid h.tail
  have hblock := (changeBlock_perm h).length_eq
  rw [inRange_cons hfrom, positions_cons hfrom, List.flatMap_cons, List.flatMap_cons, List.length_append,
    List.length_append] at hlen
  simp only [List.length_append] at hblock
  dsimp only at hlen
  refine ⟨fun d hd m hm => ?_, fun m hm hc => ?_, fun m hm me hme hadd hnone => ?_⟩
  · exact existing_of_filterMap (List.length_eq_zero_iff.1 (by omega :
      (((cs.flatMap Commit.added).flatMap (contents rd)).filterMap (mkTask c.snap)).length = 0)) m
      (List.mem_flatMap.2 ⟨d, hd, hm⟩)
  · exact existing_of_filterMap (List.length_eq_zero_iff.1 (by omega :
      (((c.added.filter fun mf => ¬mf.content = .dataContent).flatMap (contents rd)).filterMap
        (mkTask c.snap)).length = 0)) m (List.mem_filter.2 ⟨hm, by simpa using hc⟩)
  · -- a file without an id is never reported
    have hdata : m.content = .dataContent := by
      by_contra hc
      have := existing_of_filterMap (List.length_eq_zero_iff.1 (by omega :
        (((c.added.filter fun mf => ¬mf.content = .dataContent).flatMap (contents rd)).filterMap
          (mkTask c.snap)).length = 0)) m (List.mem_filter.2 ⟨hm, by simpa using hc⟩) me hme
      rw [hadd] at this
      cases this
    have hmem : me ∈ (inRange fromSid (c :: cs)).flatMap (Commit.addedFiles rd) := by
      rw [inRange_cons hfrom]
      exact List.mem_flatMap.2 ⟨c, List.mem_cons_self, List.mem_filter.2
        ⟨List.mem_flatMap.2 ⟨m, List.mem_filter.2 ⟨hm, by simpa using hdata⟩, hme⟩, by simpa using hadd⟩⟩
    obtain ⟨p, -, hp⟩ := List.mem_flatMap.1 (hpf.mem_iff.2 hmem)
    obtain ⟨-, sid, -, hsid⟩ := status_of_kept (List.mem_filter.1 hp).2
    rw [hnone] at hsid
    cases hsid

end

/-! ## Two appends -/

def firstSnapshot : Snapshot := ⟨1, none, 1, 10, "list1", [], none, none, none⟩

def secondSnapshot : Snapshot := ⟨2, some 1, 2, 20, "list2", [], none, none, none⟩

def appendTable : TableMetadata := ⟨2, 20, some 2, [firstSnapshot, secondSnapshot], [], []⟩

def appendManifest (path : String) (sid : Int) : ManifestFile :=
  ⟨path, 4096, 0, .dataContent, sid, sid, sid, some 1, some 0, some 0, some 1, some 0, some 0, [], none, none⟩

def appendedEntry (path : String) (sid : Int) : ManifestEntry :=
  ⟨.added, some sid, none, none, path, .parquetFormat, 1, 4096, none⟩

/-- The storage of the two lists and the two manifests: a file holds a number, by which it is decoded. -/
def appendReaders : ScanReaders where
  avro :=
    { readManifestList := fun bs => .ok (if bs = [1] then [appendManifest "m1" 1]
        else [appendManifest "m2" 2, appendManifest "m1" 1])
      readManifestEntries := fun bs => .ok (if bs = [1] then [appendedEntry "a.parquet" 1]
        else [appendedEntry "b.parquet" 2]) }
  readMlByPath := fun path => .ok (if path = "list1" then [1] else [2])
  readManifestByPath := fun path => .ok (if path = "m1" then [1] else [2])

def firstAppend : Commit := ⟨firstSnapshot, [appendManifest "m1" 1], [appendManifest "m1" 1]⟩

def secondAppend : Commit :=
  ⟨secondSnapshot, [appendManifest "m2" 2], [appendManifest "m2" 2, appendManifest "m1" 1]⟩

theorem built_first : Built appendReaders appendTable [firstAppend] := by
  refine .cons ⟨rfl, rfl, ?_, rfl, List.Perm.refl _, ?_, ?_⟩ .nil
  · simp
  · intro m hm
    rw [List.mem_singleton.1 hm]
    exact ⟨_, rfl⟩
  · intro m hm
    rw [List.mem_singleton.1 hm]
    decide

theorem built_second : Built appendReaders appendTable [secondAppend, firstAppend] := by
  refine .cons ⟨rfl, rfl, ?_, rfl, List.Perm.refl _, ?_, ?_⟩ built_first
  · decide
  · intro m hm
    rw [List.mem_singleton.1 hm]
    exact ⟨_, rfl⟩
  · intro m hm
    rw [List.mem_singleton.1 hm]
    decide

end Wireform.Iceberg

/-
  When a scan reads the live rows.

  * `withNumbers`, `Applies`, `Excluded`: what the table format says about the
    entries of manifests;
  * `ScansLive`: one task for each live data file that is not excluded, with the
    deletes that apply and none that is older;
  * `ScanFits`: what a table must be like for that;
  * `scan_exact_iff`, `deleted_rows_return`.
-/
import Wireform.Iceberg.Scan
import Wireform.Iceberg.Pruning

namespace Wireform.Iceberg

/-! ## The format -/

/-- Manifests with their entries. -/
abbrev Listing := List (ManifestFile × List ManifestEntry)

/-- An added entry takes the numbers that it lacks from its manifest. -/
def withNumbers (owner : ManifestFile) (me : ManifestEntry) : ManifestEntry :=
  if me.status = .added then
    { me with
      sequenceNumber := me.sequenceNumber.or (some owner.sequenceNumber)
      fileSequenceNumber := me.fileSequenceNumber.or (some owner.sequenceNumber) }
  else me

/-- The entries of the manifests of a content. -/
def entriesOf (content : ManifestContent) (listing : Listing) : List ManifestEntry :=
  listing.flatMap fun m => if m.1.content = content then m.2.map (withNumbers m.1) else []

def live (entries : List ManifestEntry) : List ManifestEntry := entries.filter fun me => me.status ≠ .deleted

/-- A delete by the values of columns; the others are by position. -/
def IsEqualityDelete (del : ManifestEntry) : Prop :=
  ∃ df, del.dataFile = some df ∧ df.content = .deletesContent ∧ df.equalityIds ≠ []

/-- The first entry has a smaller number than the second. -/
def Older (a b : ManifestEntry) : Prop := ∃ m n, a.sequenceNumber = some m ∧ b.sequenceNumber = some n ∧ m < n

/-- A delete applies to data that is not newer, one by values to older data only. -/
def Applies (data del : ManifestEntry) : Prop :=
  ∃ s d, data.sequenceNumber = some s ∧ del.sequenceNumber = some d ∧ s ≤ d ∧ (IsEqualityDelete del → s < d)

/-- The statistics of a data file prove that no row matches. -/
def Excluded (schema : Schema) (expr : Expression) (me : ManifestEntry) : Prop :=
  ∀ rows, CorrectMetrics schema (fileMetricsFromEntry me) rows → ∀ r ∈ rows, ¬ expr.Holds schema r

/-- **A scan reads exactly the live rows.** -/
structure ScansLive (schema : Schema) (expr : Expression) (listing : Listing) (tasks : List FileScanTask) : Prop where
  one_each : ∃ keep : ManifestEntry → Bool,
    tasks.map FileScanTask.fstDataFile = (live (entriesOf .dataContent listing)).filter keep ∧
      ∀ me ∈ live (entriesOf .dataContent listing), keep me = false → Excluded schema expr me
  carried : ∀ t ∈ tasks, ∀ del ∈ live (entriesOf .deletesContent listing), Applies t.fstDataFile del → del ∈ t.fstDeleteFiles
  not_older : ∀ t ∈ tasks, ∀ del ∈ t.fstDeleteFiles, ¬ Older del t.fstDataFile

/-! ## The condition -/

/-- The manifests up to a snapshot. -/
def visible (snap : Snapshot) (listing : Listing) : Listing :=
  listing.filter fun m => m.1.sequenceNumber ≤ snap.snapSequenceNumber

def mayMatch (schema : Schema) (expr : Expression) (me : ManifestEntry) : Bool :=
  evaluateInclusive schema (fileMetricsFromEntry me) expr

/-- No deleted data file passes the filter, what does not pass is excluded, and the
    numbered deletes beside a data file that passes have its own number. -/
structure ScanFits (snap : Snapshot) (schema : Schema) (expr : Expression) (listing : Listing) : Prop where
  deleted : ∀ me ∈ entriesOf .dataContent listing, me.status = .deleted → mayMatch schema expr me = false
  pruned : ∀ me ∈ live (entriesOf .dataContent listing), mayMatch schema expr me = false → Excluded schema expr me
  no_older : ∀ me ∈ entriesOf .dataContent listing, mayMatch schema expr me = true →
    ∀ del ∈ entriesOf .deletesContent (visible snap listing), ¬ Older del me
  no_newer : ∀ me ∈ entriesOf .dataContent listing, mayMatch schema expr me = true →
    ∀ del ∈ live (entriesOf .deletesContent listing), ¬ Older me del
  listed : ∀ me ∈ entriesOf .dataContent listing, mayMatch schema expr me = true →
    ∀ del ∈ live (entriesOf .deletesContent listing), Applies me del → del ∈ entriesOf .deletesContent (visible snap listing)

/-- The bytes and files stand for the listing. -/
structure Reads (avro : ManifestReader) (readManifestByPath : String → Except String ByteString) (manifestListBytes : ByteString)
    (listing : Listing) : Prop where
  manifests : avro.readManifestList manifestListBytes = .ok (listing.map Prod.fst)
  entries : ∀ m ∈ listing, ∃ bs, readManifestByPath m.1.path = .ok bs ∧ avro.readManifestEntries bs = .ok m.2

section
variable {avro : ManifestReader} {snap : Snapshot} {schema : Schema} {manifestListBytes : ByteString}
  {readManifestByPath : String → Except String ByteString} {expr : Expression} {listing : Listing} {me del : ManifestEntry}

/-! ## Reading -/

theorem inheritSequenceNumbers_eq (owner : ManifestFile) (me : ManifestEntry) :
    inheritSequenceNumbers owner me = withNumbers owner me := by
  obtain ⟨status, snapshotId, seq, fileSeq, path, format, count, size, file⟩ := me
  cases status <;> cases seq <;> cases fileSeq <;> rfl

theorem readAndInherit_ok (h : Reads avro readManifestByPath manifestListBytes listing) {m : ManifestFile × List ManifestEntry}
    (hm : m ∈ listing) : readAndInherit avro readManifestByPath m.1 = .ok (m.2.map (withNumbers m.1)) := by
  obtain ⟨bs, hbs, hentries⟩ := h.entries m hm
  rw [readAndInherit, hbs]
  have hinherit : inheritSequenceNumbers m.1 = withNumbers m.1 := funext (inheritSequenceNumbers_eq m.1)
  rw [← hinherit]
  simp only [bind, Except.bind, hentries]
  rfl

theorem mapM_readAndInherit (h : Reads avro readManifestByPath manifestListBytes listing) (ms : Listing)
    (hms : ∀ m ∈ ms, m ∈ listing) : (ms.map Prod.fst).mapM (readAndInherit avro readManifestByPath) =
      .ok (ms.map fun m => m.2.map (withNumbers m.1)) := by
  induction ms with
  | nil => rfl
  | cons m ms ih =>
    have hrest := ih fun m' hm' => hms m' (List.mem_cons_of_mem m hm')
    rw [List.map_cons, List.mapM_cons, readAndInherit_ok h (hms m List.mem_cons_self), hrest]
    rfl

/-- The entries of the manifests of a content, manifest by manifest. -/
theorem flatten_entries (content : ManifestContent) (listing : Listing) :
    ((listing.filter fun m => m.1.content = content).map fun m => m.2.map (withNumbers m.1)).flatten =
      entriesOf content listing := by
  induction listing with
  | nil => rfl
  | cons m listing ih =>
    rw [entriesOf, List.flatMap_cons, ← entriesOf, ← ih, List.filter_cons]
    by_cases hm : m.1.content = content <;> simp [hm]

/-- **What a scan plans**, over the entries that it reads. -/
theorem planScanWithFilterAt_eq (h : Reads avro readManifestByPath manifestListBytes listing) :
    planScanWithFilterAt avro snap schema manifestListBytes readManifestByPath expr =
      .ok (((entriesOf .dataContent listing).filter (mayMatch schema expr)).map fun me =>
        ⟨me, applicableDeleteEntries me (entriesOf .deletesContent (visible snap listing)), 0⟩, snap, schema) := by
  have hdata : (listing.map Prod.fst).filter (fun mf => mf.content = .dataContent) =
      (listing.filter fun m => m.1.content = .dataContent).map Prod.fst := List.filter_map
  have hdels : applicableDeletes snap (listing.map Prod.fst) =
      ((visible snap listing).filter fun m => m.1.content = .deletesContent).map Prod.fst := by
    rw [applicableDeletes, List.filter_map, visible, List.filter_filter]
    rfl
  have hreadData := mapM_readAndInherit h (listing.filter fun m => m.1.content = .dataContent)
    fun m hm => (List.mem_filter.1 hm).1
  have hreadDels := mapM_readAndInherit h ((visible snap listing).filter fun m => m.1.content = .deletesContent)
    fun m hm => (List.mem_filter.1 (List.mem_filter.1 hm).1).1
  rw [planScanWithFilterAt, h.manifests]
  simp only [bind, Except.bind, hdata, hdels, hreadData, hreadDels, flatten_entries]
  rfl

/-! ## Exactness -/

theorem mem_applicableDeleteEntries {dels : List ManifestEntry} :
    del ∈ applicableDeleteEntries me dels ↔ del ∈ dels ∧ ¬ Older me del := by
  rw [applicableDeleteEntries, List.mem_filter]
  refine and_congr_right fun _ => ?_
  unfold Older
  cases hs : me.sequenceNumber <;> cases hd : del.sequenceNumber <;> simp

theorem mem_live {entries : List ManifestEntry} : me ∈ live entries ↔ me ∈ entries ∧ me.status ≠ .deleted := by
  simp [live]

/-- A newer delete applies, whatever it deletes by. -/
theorem Older.applies (h : Older me del) : Applies me del := by
  obtain ⟨s, d, hs, hd, hlt⟩ := h
  exact ⟨s, d, hs, hd, hlt.le, fun _ => hlt⟩

/-- The tasks of a scan. -/
def planned (snap : Snapshot) (schema : Schema) (expr : Expression) (listing : Listing) : List FileScanTask :=
  ((entriesOf .dataContent listing).filter (mayMatch schema expr)).map fun me =>
    ⟨me, applicableDeleteEntries me (entriesOf .deletesContent (visible snap listing)), 0⟩

theorem planned_files (snap : Snapshot) (schema : Schema) (expr : Expression) (listing : Listing) :
    (planned snap schema expr listing).map FileScanTask.fstDataFile =
      (entriesOf .dataContent listing).filter (mayMatch schema expr) := by
  rw [planned, List.map_map]
  exact List.map_id _

theorem mem_planned {t : FileScanTask} : t ∈ planned snap schema expr listing ↔
    ∃ me ∈ entriesOf .dataContent listing, mayMatch schema expr me = true ∧
      t = ⟨me, applicableDeleteEntries me (entriesOf .deletesContent (visible snap listing)), 0⟩ := by
  simp only [planned, List.mem_map, List.mem_filter, and_assoc]
  exact exists_congr fun me => and_congr_right fun _ => and_congr_right fun _ => eq_comm

/-- What passes the filter is live where no deleted file does. -/
theorem filter_live (h : ∀ me ∈ entriesOf .dataContent listing, me.status = .deleted → mayMatch schema expr me = false) :
    (live (entriesOf .dataContent listing)).filter (mayMatch schema expr) =
      (entriesOf .dataContent listing).filter (mayMatch schema expr) := by
  rw [live, List.filter_filter]
  refine List.filter_congr fun me hme => ?_
  by_cases hdeleted : me.status = .deleted
  · simp [h me hme hdeleted]
  · simp [hdeleted]

theorem scansLive_planned (h : ScanFits snap schema expr listing) :
    ScansLive schema expr listing (planned snap schema expr listing) where
  one_each := by
    refine ⟨mayMatch schema expr, ?_, h.pruned⟩
    rw [planned_files, filter_live h.deleted]
  carried := by
    intro t ht del hdel happlies
    obtain ⟨me, hme, hmay, rfl⟩ := mem_planned.1 ht
    exact mem_applicableDeleteEntries.2 ⟨h.listed me hme hmay del hdel happlies, h.no_newer me hme hmay del hdel⟩
  not_older := by
    intro t ht del hdel
    obtain ⟨me, hme, hmay, rfl⟩ := mem_planned.1 ht
    exact h.no_older me hme hmay del (mem_applicableDeleteEntries.1 hdel).1

theorem scanFits_of (h : ScansLive schema expr listing (planned snap schema expr listing)) :
    ScanFits snap schema expr listing := by
  obtain ⟨⟨keep, hfiles, hkeep⟩, hcarried, hnot⟩ := h
  rw [planned_files] at hfiles
  have htask {me : ManifestEntry} (hme : me ∈ entriesOf .dataContent listing) (hmay : mayMatch schema expr me = true) :
      ⟨me, applicableDeleteEntries me (entriesOf .deletesContent (visible snap listing)), 0⟩ ∈
        planned snap schema expr listing := mem_planned.2 ⟨me, hme, hmay, rfl⟩
  constructor
  · intro me hme hdeleted
    by_contra hmay
    have hpass : me ∈ (entriesOf .dataContent listing).filter (mayMatch schema expr) :=
      List.mem_filter.2 ⟨hme, by simpa using hmay⟩
    rw [hfiles] at hpass
    exact (mem_live.1 (List.mem_filter.1 hpass).1).2 hdeleted
  · intro me hme hmay
    refine hkeep me hme ?_
    by_contra hkept
    have hpass : me ∈ (live (entriesOf .dataContent listing)).filter keep :=
      List.mem_filter.2 ⟨hme, by simpa using hkept⟩
    rw [← hfiles] at hpass
    have htrue := (List.mem_filter.1 hpass).2
    rw [hmay] at htrue
    cases htrue
  · intro me hme hmay del hdel holder
    refine hnot _ (htask hme hmay) del (mem_applicableDeleteEntries.2 ⟨hdel, ?_⟩) holder
    -- an older delete is not newer
    rintro ⟨s, d, hs, hd, hlt⟩
    obtain ⟨d', s', hd', hs', hlt'⟩ := holder
    rw [hs] at hs'
    rw [hd] at hd'
    cases hs'
    cases hd'
    exact hlt.asymm hlt'
  · intro me hme hmay del hdel holder
    exact (mem_applicableDeleteEntries.1 (hcarried _ (htask hme hmay) del hdel holder.applies)).2 holder
  · intro me hme hmay del hdel happlies
    exact (mem_applicableDeleteEntries.1 (hcarried _ (htask hme hmay) del hdel happlies)).1

/-- **A scan reads exactly the live rows** if and only if no deleted data file passes the
    filter, what does not pass is excluded by its statistics, and the deletes
    beside the data files that pass are neither older nor newer. -/
theorem scan_exact_iff {tm : TableMetadata} {schemas : TableSchemas} (hsnap : currentSnapshot tm = some snap)
    (hschema : currentSchema schemas = some schema) (h : Reads avro readManifestByPath manifestListBytes listing) :
    ∃ tasks, planScanWithFilter avro tm schemas manifestListBytes readManifestByPath expr = .ok (tasks, snap, schema) ∧
      (ScansLive schema expr listing tasks ↔ ScanFits snap schema expr listing) := by
  refine ⟨planned snap schema expr listing, ?_, scanFits_of, scansLive_planned⟩
  rw [planScanWithFilter, hsnap, hschema]
  exact planScanWithFilterAt_eq h

end

/-! ## A table with one delete -/

def sampleEntry (seq : Option Int) (path : String) : ManifestEntry :=
  ⟨.added, some 1, seq, seq, path, .parquetFormat, 3, 100, none⟩

def sampleManifest (path : String) (content : ManifestContent) (seq : Int) : ManifestFile :=
  ⟨path, 100, 0, content, seq, seq, 1, some 1, some 0, some 0, none, none, none, [], none, none⟩

/-- A data file of the first commit, and a delete of positions of the commit `n`. -/
def sampleListing (n : Int) : Listing :=
  [(sampleManifest "data" .dataContent 1, [sampleEntry none "a"]),
    (sampleManifest "deletes" .deletesContent n, [sampleEntry none "d"])]

def sampleReader (n : Int) : ManifestReader where
  readManifestList _ := .ok ((sampleListing n).map Prod.fst)
  readManifestEntries bs := .ok [sampleEntry none (if bs = [1] then "a" else "d")]

def sampleFiles (path : String) : Except String ByteString := .ok (if path = "data" then [1] else [2])

def sampleSnapshot : Snapshot := ⟨1, none, 2, 0, "list", [], some 0, none, none⟩

def sampleTable : TableMetadata := ⟨2, 0, some 1, [sampleSnapshot], [], []⟩

def sampleSchemas : TableSchemas := ⟨[(0, sampleSchema)], 0⟩

theorem sample_reads (n : Int) : Reads (sampleReader n) sampleFiles [] (sampleListing n) where
  manifests := rfl
  entries := by
    intro m hm
    rw [sampleListing, List.mem_cons, List.mem_singleton] at hm
    rcases hm with rfl | rfl
    · exact ⟨[1], rfl, rfl⟩
    · exact ⟨[2], rfl, rfl⟩

theorem sample_fits : ScanFits sampleSnapshot sampleSchema .true (sampleListing 1) := by
  have hnumber {me : ManifestEntry} {content : ManifestContent} (hme : me ∈ entriesOf content (sampleListing 1)) :
      me.status = .added ∧ me.sequenceNumber = some 1 := by
    cases content <;> cases List.mem_singleton.1 hme <;> exact ⟨rfl, rfl⟩
  have hnot {a b : ManifestEntry} (ha : a.sequenceNumber = some 1) (hb : b.sequenceNumber = some 1) : ¬ Older a b := by
    rintro ⟨m, n, hm, hn, hlt⟩
    rw [ha] at hm
    rw [hb] at hn
    cases hm
    cases hn
    exact lt_irrefl _ hlt
  constructor
  · intro me hme hdeleted
    rw [(hnumber hme).1] at hdeleted
    cases hdeleted
  · intro me _ hmay
    cases hmay
  · intro me hme _ del hdel
    exact hnot (hnumber hdel).2 (hnumber hme).2
  · intro me hme _ del hdel
    exact hnot (hnumber hme).2 (hnumber (mem_live.1 hdel).1).2
  · intro me _ _ del hdel _
    exact (mem_live.1 hdel).1

theorem scan_exact_sample : ∃ tasks,
    planScanWithFilter (sampleReader 1) sampleTable sampleSchemas [] sampleFiles .true =
      .ok (tasks, sampleSnapshot, sampleSchema) ∧ ScansLive sampleSchema .true (sampleListing 1) tasks := by
  obtain ⟨tasks, hplan, hiff⟩ := @scan_exact_iff _ _ _ _ _ .true _ sampleTable sampleSchemas rfl rfl (sample_reads 1)
  exact ⟨tasks, hplan, hiff.2 sample_fits⟩

/-- **A row that the second commit deletes is returned**: the task of its data file
    carries no delete. -/
theorem deleted_rows_return : ∃ tasks,
    Reads (sampleReader 2) sampleFiles [] (sampleListing 2) ∧
      planScanWithFilter (sampleReader 2) sampleTable sampleSchemas [] sampleFiles .true =
        .ok (tasks, sampleSnapshot, sampleSchema) ∧
      (tasks.map fun t => (t.fstDataFile.filePath, t.fstDeleteFiles.length)) = [("a", 0)] ∧
      ¬ ScansLive sampleSchema .true (sampleListing 2) tasks := by
  refine ⟨[⟨sampleEntry (some 1) "a", [], 0⟩], sample_reads 2, rfl, rfl, ?_⟩
  intro h
  have hlive : sampleEntry (some 2) "d" ∈ live (entriesOf .deletesContent (sampleListing 2)) := List.mem_singleton_self _
  have happlies : Applies (sampleEntry (some 1) "a") (sampleEntry (some 2) "d") :=
    ⟨1, 2, rfl, rfl, by decide, fun _ => by decide⟩
  cases h.carried _ (List.mem_singleton_self _) _ hlive happlies

end Wireform.Iceberg

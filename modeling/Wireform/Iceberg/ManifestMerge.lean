/-
  Manifest write planning (`Iceberg.ManifestMerge`).

  * `planFastAppend`: one new manifest in front of the existing ones;
  * `planAppend`: the small manifests are read and rewritten with the new
    entries, in bins;
  * `planRewriteManifests`: the same for given manifests.

  The loop that cuts the bins has a fuel here; no result means that the fuel has
  run out.
-/
import Wireform.Iceberg.Types

namespace Wireform.Iceberg

/-! ## Plans -/

structure MergePolicy where
  mergeEnabled : Bool
  targetSizeBytes : Int
  minCountToMerge : Int
  maxFilesPerManifest : Int

/-- A manifest that the caller must write. -/
structure WriteManifestTask where
  path : String
  specId : Int
  content : ManifestContent
  addedSnapshotId : Int
  sequenceNumber : Int
  minSequenceNumber : Int
  entries : List ManifestEntry

structure CommitPlan where
  newManifests : List WriteManifestTask
  newManifestList : List ManifestFile

/-! ## Tasks -/

/-- Added entries get the commit's numbers; the others keep theirs. -/
def assignSequenceNumbers (seqNum snap : Int) (me : ManifestEntry) : ManifestEntry :=
  { me with
    snapshotId := match me.status with
      | .added => some snap
      | _ => me.snapshotId
    sequenceNumber := match me.status with
      | .added => some seqNum
      | _ => me.sequenceNumber
    fileSequenceNumber := match me.status with
      | .added => some seqNum
      | _ => me.fileSequenceNumber }

def minOpt (acc : Int) (me : ManifestEntry) : Int :=
  match me.sequenceNumber with
  | some s => min acc s
  | none => acc

def newManifestTask (seqNum snap specId : Int) (content : ManifestContent) (path : String) (entries : List ManifestEntry) :
    WriteManifestTask where
  path := path
  specId := specId
  content := content
  addedSnapshotId := snap
  sequenceNumber := seqNum
  minSequenceNumber := entries.foldl minOpt seqNum
  entries := entries

/-- The entries of a status. -/
def countStatus (entries : List ManifestEntry) (status : ManifestStatus) : Int :=
  ((entries.filter fun me => me.status = status).length : Nat)

def sumRows (entries : List ManifestEntry) (status : ManifestStatus) : Int :=
  entries.foldl (fun acc me => if me.status = status then addInt acc me.recordCount else acc) 0

/-- The manifest list entry of a task; its length is not known yet. -/
def manifestFilePlaceholder (t : WriteManifestTask) : ManifestFile where
  path := t.path
  length := 0
  partitionSpecId := t.specId
  content := t.content
  sequenceNumber := t.sequenceNumber
  minSequenceNumber := t.minSequenceNumber
  addedSnapshotId := t.addedSnapshotId
  addedDataFilesCount := some (countStatus t.entries .added)
  existingDataFilesCount := some (countStatus t.entries .existing)
  deletedDataFilesCount := some (countStatus t.entries .deleted)
  addedRowsCount := some (sumRows t.entries .added)
  existingRowsCount := some (sumRows t.entries .existing)
  deletedRowsCount := some (sumRows t.entries .deleted)
  partitions := []
  keyMetadata := none
  firstRowId := none

/-! ## Bins -/

structure Bin where
  entries : List ManifestEntry
  size : Int

def entrySize (me : ManifestEntry) : Int := max 1 (me.fileSizeBytes / 1024)

/-- The loop of `takeBin`: `i` entries of `xs` are taken, of size `sz`. -/
def takeBin.go (maxFiles target : Int) (xs : List ManifestEntry) : Nat → Int → List ManifestEntry →
    List ManifestEntry × List ManifestEntry
  | _, _, [] => (xs, [])
  | i, sz, x :: rest =>
    if (i : Int) ≥ maxFiles then (xs.take i, xs.drop i)
    else if i > 0 ∧ addInt sz (entrySize x) > target then (xs.take i, xs.drop i)
    else go maxFiles target xs (i + 1) (addInt sz (entrySize x)) rest

def takeBin (maxFiles target : Int) (xs : List ManifestEntry) : List ManifestEntry × List ManifestEntry :=
  takeBin.go maxFiles target xs 0 0 xs

def binPackBySize.go (policy : MergePolicy) : Nat → List Bin → List ManifestEntry → Option (List Bin)
  | 0, _, _ => none
  | fuel + 1, acc, remaining =>
    if remaining.isEmpty then some acc.reverse
    else
      let taken := takeBin policy.maxFilesPerManifest policy.targetSizeBytes remaining
      let bin := ⟨taken.1, taken.1.foldl (fun s e => addInt s (entrySize e)) 0⟩
      go policy fuel (bin :: acc) taken.2

/-- Cuts the entries into bins, in their order. -/
def binPackBySize (fuel : Nat) (policy : MergePolicy) (entries : List ManifestEntry) : Option (List Bin) :=
  binPackBySize.go policy fuel [] entries

attribute [grind =] takeBin.go binPackBySize.go

/-! ## Planning -/

def planFastAppend (seqNum snap specId : Int) (newPath : String) (newEntries : List ManifestEntry)
    (existing : List ManifestFile) : CommitPlan :=
  let entries := newEntries.map (assignSequenceNumbers seqNum snap)
  let task := newManifestTask seqNum snap specId .dataContent newPath entries
  { newManifests := [task]
    newManifestList := manifestFilePlaceholder task :: existing }

def isMergeable (policy : MergePolicy) (mf : ManifestFile) : Bool := decide (mf.length < policy.targetSizeBytes)

def mkBinTask (genPath : String → Nat → String) (seqNum snap specId : Int) (i : Nat) (bin : Bin) : WriteManifestTask :=
  newManifestTask seqNum snap specId .dataContent (genPath "merged" i) bin.entries

/-- The tasks of the bins. -/
def binTasks (genPath : String → Nat → String) (seqNum snap specId : Int) (bins : List Bin) : List WriteManifestTask :=
  bins.mapIdx (mkBinTask genPath seqNum snap specId)

def sameSpec (specId : Int) (mf : ManifestFile) : Bool := decide (mf.partitionSpecId = specId) && decide (mf.content = .dataContent)

/-- **Merge-append.** -/
def planAppend (fuel : Nat) (policy : MergePolicy) (genPath : String → Nat → String)
    (readEntries : ManifestFile → Except String (List ManifestEntry)) (seqNum snap specId : Int)
    (newEntries : List ManifestEntry) (existing : List ManifestFile) : Option (Except String CommitPlan) :=
  if !policy.mergeEnabled then
    some (.ok (planFastAppend seqNum snap specId (genPath "append" 0) newEntries existing))
  else
    let (same, otherSpec) := existing.partition (sameSpec specId)
    let (mergeable, untouched) := same.partition (isMergeable policy)
    if (mergeable.length : Int) < policy.minCountToMerge then
      some (.ok (planFastAppend seqNum snap specId (genPath "append" 0) newEntries (untouched ++ otherSpec)))
    else
      match mergeable.mapM readEntries with
      | .error e => some (.error e)
      | .ok existingEntries =>
        let entries := (newEntries :: existingEntries).flatten.map (assignSequenceNumbers seqNum snap)
        (binPackBySize fuel policy entries).map fun bins =>
          let tasks := binTasks genPath seqNum snap specId bins
          .ok { newManifests := tasks
                newManifestList := tasks.map manifestFilePlaceholder ++ untouched ++ otherSpec }

/-- **Rewrites manifests.** -/
def planRewriteManifests (fuel : Nat) (policy : MergePolicy) (genPath : String → Nat → String)
    (readEntries : ManifestFile → Except String (List ManifestEntry)) (seqNum snap specId : Int)
    (toRewrite keep : List ManifestFile) : Option (Except String CommitPlan) :=
  match toRewrite.mapM readEntries with
  | .error e => some (.error e)
  | .ok rewritten =>
    (binPackBySize fuel policy rewritten.flatten).map fun bins =>
      let tasks := binTasks genPath seqNum snap specId bins
      .ok { newManifests := tasks
            newManifestList := tasks.map manifestFilePlaceholder ++ keep }

end Wireform.Iceberg

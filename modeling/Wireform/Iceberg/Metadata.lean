/-
  Table metadata and its updates (`Iceberg.Update`, `Iceberg.Maintenance`,
  `Iceberg.Snapshot`).

  * `addSnapshot`: the three commits; the id of a snapshot is one above the
    largest that is there;
  * branches, tags, and the current snapshot;
  * `expireSnapshots`.

  The walks along parents have a fuel here; no result means that it has run out.
  Of the metadata the fields are kept that these functions read or write.
-/
import Wireform.Filing
import Wireform.MachineInt
import Mathlib.Data.List.Sort
import Mathlib.Data.String.Basic

namespace Wireform.Iceberg

structure Snapshot where
  snapId : Int
  snapParentId : Option Int
  snapSequenceNumber : Int
  snapTimestampMs : Int
  snapManifestList : String
  snapSummary : AssocMap String String
  snapSchemaId : Option Int
  snapFirstRowId : Option Int
  snapKeyId : Option String

structure SnapshotLogEntry where
  sleTimestampMs : Int
  sleSnapshotId : Int

structure SnapshotRef where
  srSnapshotId : Int
  srType : String
  srMaxRefAgeMs : Option Int
  srMaxSnapshotAgeMs : Option Int
  srMinSnapshotsToKeep : Option Int

structure TableMetadata where
  tmLastSequenceNumber : Int
  tmLastUpdatedMs : Int
  tmCurrentSnapshotId : Option Int
  tmSnapshots : List Snapshot
  tmSnapshotLog : List SnapshotLogEntry
  tmSnapshotRefs : AssocMap String SnapshotRef

/-! ## Commits -/

structure SnapshotStats where
  ssAddedDataFiles : Int
  ssAddedRecords : Int
  ssAddedFilesSize : Int
  ssRemovedDataFiles : Int
  ssRemovedRecords : Int
  ssRemovedFilesSize : Int
  ssAddedDeleteFiles : Int
  ssAddedPositionDeletes : Int
  ssAddedEqualityDeletes : Int
  ssTotalDataFiles : Int
  ssTotalRecords : Int
  ssTotalFilesSize : Int
  ssTotalDeleteFiles : Int
  ssTotalPositionDeletes : Int
  ssTotalEqualityDeletes : Int

/-- A count of the summary; zero is left out. -/
def textPair (k : String) (v : Int) : List (String × String) := if v = 0 then [] else [(k, toString v)]

def autoSummary (s : SnapshotStats) : AssocMap String String :=
  AssocMap.fromList (textPair "added-data-files" s.ssAddedDataFiles ++ textPair "added-records" s.ssAddedRecords ++
    textPair "added-files-size" s.ssAddedFilesSize ++ textPair "removed-data-files" s.ssRemovedDataFiles ++
    textPair "removed-records" s.ssRemovedRecords ++ textPair "removed-files-size" s.ssRemovedFilesSize ++
    textPair "added-delete-files" s.ssAddedDeleteFiles ++ textPair "added-position-deletes" s.ssAddedPositionDeletes ++
    textPair "added-equality-deletes" s.ssAddedEqualityDeletes ++ textPair "total-data-files" s.ssTotalDataFiles ++
    textPair "total-records" s.ssTotalRecords ++ textPair "total-files-size" s.ssTotalFilesSize ++
    textPair "total-delete-files" s.ssTotalDeleteFiles ++ textPair "total-position-deletes" s.ssTotalPositionDeletes ++
    textPair "total-equality-deletes" s.ssTotalEqualityDeletes)

/-- The caller's entries, and the counts that they do not name. -/
def mergeSummary (stats : Option SnapshotStats) (user : AssocMap String String) : AssocMap String String :=
  match stats with
  | none => user
  | some s => user.foldl (fun m e => AssocMap.insert e.1 e.2 m) (autoSummary s)

/-- What is committed: `AppendFiles`, `OverwriteFiles` and `RowDelta`. -/
structure FileChange where
  newManifestList : String
  timestampMs : Int
  summary : AssocMap String String
  stats : Option SnapshotStats
  schemaId : Option Int

/-- One above the largest id, from 1. -/
def nextSnapshotId (tm : TableMetadata) : Int :=
  match tm.tmSnapshots.map Snapshot.snapId with
  | [] => 1
  | x :: xs => addInt (xs.foldl max x) 1

/-- The new snapshot of a commit. -/
def newSnapshot (tm : TableMetadata) (ts : Int) (mlPath : String) (userSummary : AssocMap String String) (schId : Option Int)
    (op : String) : Snapshot where
  snapId := nextSnapshotId tm
  snapParentId := tm.tmCurrentSnapshotId
  snapSequenceNumber := addInt tm.tmLastSequenceNumber 1
  snapTimestampMs := ts
  snapManifestList := mlPath
  snapSummary := AssocMap.insert "operation" op userSummary
  snapSchemaId := schId
  snapFirstRowId := none
  snapKeyId := none

/-- A branch without retention settings. -/
def plainBranch (sid : Int) : SnapshotRef := ⟨sid, "branch", none, none, none⟩

def addSnapshot (tm : TableMetadata) (ts : Int) (mlPath : String) (userSummary : AssocMap String String) (schId : Option Int)
    (op : String) : TableMetadata :=
  let snap := newSnapshot tm ts mlPath userSummary schId op
  { tmLastSequenceNumber := snap.snapSequenceNumber
    tmLastUpdatedMs := ts
    tmCurrentSnapshotId := some snap.snapId
    tmSnapshots := tm.tmSnapshots ++ [snap]
    tmSnapshotLog := tm.tmSnapshotLog ++ [⟨ts, snap.snapId⟩]
    tmSnapshotRefs := AssocMap.insert "main" (plainBranch snap.snapId) tm.tmSnapshotRefs }

/-- A commit of the given operation. -/
def commitFiles (op : String) (tm : TableMetadata) (f : FileChange) : TableMetadata :=
  addSnapshot tm f.timestampMs f.newManifestList (mergeSummary f.stats f.summary) f.schemaId op

def appendFiles : TableMetadata → FileChange → TableMetadata := commitFiles "append"

def overwriteFiles : TableMetadata → FileChange → TableMetadata := commitFiles "overwrite"

def rowDelta : TableMetadata → FileChange → TableMetadata := commitFiles "delete"

/-! ## References -/

def snapshotById (tm : TableMetadata) (sid : Int) : Option Snapshot := tm.tmSnapshots.find? fun s => s.snapId = sid

/-- The 32-bit integer of a number. -/
def toInt32 (n : Int) : Int := (2 ^ 31 + n) % 2 ^ 32 - 2 ^ 31

def createBranch (name : String) (sid : Int) (mra msa msk : Option Int) (tm : TableMetadata) : TableMetadata :=
  { tm with tmSnapshotRefs := AssocMap.insert name ⟨sid, "branch", mra, msa, msk.map toInt32⟩ tm.tmSnapshotRefs }

def createTag (name : String) (sid : Int) (mra : Option Int) (tm : TableMetadata) : TableMetadata :=
  { tm with tmSnapshotRefs := AssocMap.insert name ⟨sid, "tag", mra, none, none⟩ tm.tmSnapshotRefs }

def removeRef (name : String) (tm : TableMetadata) : TableMetadata :=
  if name = "main" then tm else { tm with tmSnapshotRefs := AssocMap.erase name tm.tmSnapshotRefs }

def ancestors (tm : TableMetadata) : Nat → Int → Option (List Snapshot)
  | 0, _ => none
  | fuel + 1, sid =>
    match snapshotById tm sid with
    | none => some []
    | some s =>
      match s.snapParentId with
      | none => some [s]
      | some p => (ancestors tm fuel p).map fun history => s :: history

def fastForwardBranch (fuel : Nat) (name : String) (newSid : Int) (tm : TableMetadata) : Option TableMetadata :=
  match AssocMap.lookup name tm.tmSnapshotRefs with
  | none => some tm
  | some ref =>
    (ancestors tm fuel newSid).map fun history =>
      if ref.srSnapshotId ∈ history.map Snapshot.snapId then
        { tm with tmSnapshotRefs := AssocMap.insert name { ref with srSnapshotId := newSid } tm.tmSnapshotRefs }
      else tm

def snapshotParentChain (tm : TableMetadata) : Nat → Snapshot → Option (List Snapshot)
  | 0, _ => none
  | fuel + 1, snap =>
    match snap.snapParentId.bind (snapshotById tm) with
    | none => some []
    | some parent => (snapshotParentChain tm fuel parent).map fun chain => parent :: chain

def ancestorsOf (tm : TableMetadata) (fuel : Nat) (sid : Int) : Option (List Snapshot) :=
  match snapshotById tm sid with
  | none => some []
  | some s => (snapshotParentChain tm fuel s).map fun chain => s :: chain

def isAncestor (tm : TableMetadata) (fuel : Nat) (ancestor descendant : Int) : Option Bool :=
  (ancestorsOf tm fuel descendant).map fun chain => chain.any fun s => s.snapId = ancestor

def setCurrentSnapshot (sid : Int) (tm : TableMetadata) : TableMetadata :=
  match snapshotById tm sid with
  | none => tm
  | some _ =>
    let mainRef := match AssocMap.lookup "main" tm.tmSnapshotRefs with
      | some r => { r with srSnapshotId := sid }
      | none => plainBranch sid
    { tm with
      tmCurrentSnapshotId := some sid
      tmSnapshotRefs := AssocMap.insert "main" mainRef tm.tmSnapshotRefs }

def rollbackToSnapshot (fuel : Nat) (sid : Int) (tm : TableMetadata) : Option (Except String TableMetadata) :=
  match tm.tmCurrentSnapshotId with
  | none => some (.error "rollbackToSnapshot: table has no current snapshot")
  | some curSid =>
    if sid = curSid then some (.ok tm)
    else
      (isAncestor tm fuel sid curSid).map fun found =>
        if !found then
          .error ("rollbackToSnapshot: snapshot " ++ toString sid ++ " is not an ancestor of the current snapshot " ++ toString curSid)
        else
          match snapshotById tm sid with
          | none => .error ("rollbackToSnapshot: no such snapshot " ++ toString sid)
          | some _ => .ok (setCurrentSnapshot sid tm)

/-! ## Expiry -/

structure ExpiryPolicy where
  epMaxAgeMs : Option Int
  epMinSnapshots : Int
  epRetainSnapshots : List Int

structure ExpirationResult where
  exNewMetadata : TableMetadata
  exExpiredSnapshots : List Snapshot

/-- The ids that references, the current id and the policy name. -/
def retainedIds (tm : TableMetadata) (policy : ExpiryPolicy) : List Int :=
  tm.tmSnapshotRefs.map (fun e => e.2.srSnapshotId) ++ tm.tmCurrentSnapshotId.toList ++ policy.epRetainSnapshots

/-- The snapshots by their timestamps, the newest first: the reverse of a stable
    sort. -/
def sortedNewest (snaps : List Snapshot) : List Snapshot :=
  (snaps.insertionSort fun s t => s.snapTimestampMs ≤ t.snapTimestampMs).reverse

def ageCutoff (nowMs : Int) (policy : ExpiryPolicy) : Int :=
  match policy.epMaxAgeMs with
  | some age => subInt nowMs age
  | none => -2 ^ 63

def shouldKeep (nowMs : Int) (policy : ExpiryPolicy) (tm : TableMetadata) (s : Snapshot) : Bool :=
  (retainedIds tm policy).contains s.snapId ||
    (((sortedNewest tm.tmSnapshots).take policy.epMinSnapshots.toNat).map Snapshot.snapId).contains s.snapId ||
    decide (ageCutoff nowMs policy ≤ s.snapTimestampMs)

def expireSnapshots (nowMs : Int) (policy : ExpiryPolicy) (tm : TableMetadata) : ExpirationResult :=
  let (kept, expired) := tm.tmSnapshots.partition (shouldKeep nowMs policy tm)
  let keepIds := kept.map Snapshot.snapId
  { exNewMetadata :=
      { tm with
        tmSnapshots := kept
        tmSnapshotRefs := tm.tmSnapshotRefs.filter fun e => keepIds.contains e.2.srSnapshotId
        tmCurrentSnapshotId := tm.tmCurrentSnapshotId.filter fun sid => keepIds.contains sid
        tmSnapshotLog := tm.tmSnapshotLog.filter fun e => keepIds.contains e.sleSnapshotId }
    exExpiredSnapshots := expired }

/-! ## Operations -/

inductive Operation where
  | append (f : FileChange)
  | overwrite (f : FileChange)
  | rowDelta (f : FileChange)
  | createBranch (name : String) (sid : Int) (mra msa msk : Option Int)
  | createTag (name : String) (sid : Int) (mra : Option Int)
  | removeRef (name : String)
  | fastForward (name : String) (sid : Int)
  | rollback (sid : Int)
  | setCurrent (sid : Int)
  | expire (nowMs : Int) (policy : ExpiryPolicy)

/-- A rollback that fails leaves the metadata as it is. -/
def rolledBack (tm : TableMetadata) : Except String TableMetadata → TableMetadata
  | .error _ => tm
  | .ok tm' => tm'

/-- The metadata after an operation. -/
def Operation.run (fuel : Nat) (tm : TableMetadata) : Operation → Option TableMetadata
  | .append f => some (appendFiles tm f)
  | .overwrite f => some (overwriteFiles tm f)
  | .rowDelta f => some (Iceberg.rowDelta tm f)
  | .createBranch name sid mra msa msk => some (Iceberg.createBranch name sid mra msa msk tm)
  | .createTag name sid mra => some (Iceberg.createTag name sid mra tm)
  | .removeRef name => some (Iceberg.removeRef name tm)
  | .fastForward name sid => fastForwardBranch fuel name sid tm
  | .rollback sid => (rollbackToSnapshot fuel sid tm).map (rolledBack tm)
  | .setCurrent sid => some (setCurrentSnapshot sid tm)
  | .expire nowMs policy => some (expireSnapshots nowMs policy tm).exNewMetadata

/-- The snapshot that an operation commits. -/
def Operation.committed (tm : TableMetadata) : Operation → Option Snapshot
  | .append f => some (newSnapshot tm f.timestampMs f.newManifestList (mergeSummary f.stats f.summary) f.schemaId "append")
  | .overwrite f => some (newSnapshot tm f.timestampMs f.newManifestList (mergeSummary f.stats f.summary) f.schemaId "overwrite")
  | .rowDelta f => some (newSnapshot tm f.timestampMs f.newManifestList (mergeSummary f.stats f.summary) f.schemaId "delete")
  | _ => none

end Wireform.Iceberg

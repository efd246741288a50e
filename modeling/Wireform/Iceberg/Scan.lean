/-
  Scan planning (`Iceberg.Read`, `Iceberg.Snapshot`).

  * `inheritSequenceNumbers`: an added entry without a number gets its
    manifest's;
  * `applicableDeletes`, `applicableDeleteEntries`: the delete manifests of a
    snapshot and the delete files of a data file;
  * `planScanWithFilter`: one task for each data file that may match.

  How manifests and manifest lists are stored is a parameter.
-/
import Wireform.Iceberg.Metadata
import Wireform.Iceberg.Metrics

namespace Wireform.Iceberg

/-- Readers of a manifest list and of a manifest. -/
structure ManifestReader where
  readManifestList : ByteString → Except String (List ManifestFile)
  readManifestEntries : ByteString → Except String (List ManifestEntry)

structure FileScanTask where
  fstDataFile : ManifestEntry
  fstDeleteFiles : List ManifestEntry
  fstSpecId : Int

/-! ## Entries -/

def inheritSequenceNumbers (owner : ManifestFile) (me : ManifestEntry) : ManifestEntry :=
  { me with
    sequenceNumber := match me.sequenceNumber with
      | some n => some n
      | none => if me.status = .added then some owner.sequenceNumber else none
    fileSequenceNumber := match me.fileSequenceNumber with
      | some n => some n
      | none => if me.status = .added then some owner.sequenceNumber else none }

def fileMetricsFromEntry (me : ManifestEntry) : FileMetrics :=
  match me.dataFile with
  | some df => ⟨me.recordCount, df.valueCounts, df.nullValueCounts, df.nanValueCounts, df.lowerBounds, df.upperBounds⟩
  | none => emptyFileMetrics me.recordCount

def applicableDeletes (snap : Snapshot) (mfs : List ManifestFile) : List ManifestFile :=
  mfs.filter fun mf => mf.content = .deletesContent && mf.sequenceNumber ≤ snap.snapSequenceNumber

def applicableDeleteEntries (dataEntry : ManifestEntry) (dels : List ManifestEntry) : List ManifestEntry :=
  dels.filter fun del =>
    match dataEntry.sequenceNumber, del.sequenceNumber with
    | some dataSeq, some delSeq => delSeq ≤ dataSeq
    | _, _ => true

/-! ## Plans -/

def readAndInherit (avro : ManifestReader) (readManifestByPath : String → Except String ByteString) (manifest : ManifestFile) :
    Except String (List ManifestEntry) := do
  let bs ← readManifestByPath manifest.path
  let entries ← avro.readManifestEntries bs
  return entries.map (inheritSequenceNumbers manifest)

def planScanWithFilterAt (avro : ManifestReader) (snap : Snapshot) (schema : Schema) (manifestListBytes : ByteString)
    (readManifestByPath : String → Except String ByteString) (expr : Expression) :
    Except String (List FileScanTask × Snapshot × Schema) := do
  let manifestFiles ← avro.readManifestList manifestListBytes
  let dataMfs := manifestFiles.filter fun mf => mf.content = .dataContent
  let delMfs := applicableDeletes snap manifestFiles
  let dataEntryVecs ← dataMfs.mapM (readAndInherit avro readManifestByPath)
  let delEntryVecs ← delMfs.mapM (readAndInherit avro readManifestByPath)
  let allDataEntries := dataEntryVecs.flatten
  let allDelEntries := delEntryVecs.flatten
  let surviving := allDataEntries.filter fun me => evaluateInclusive schema (fileMetricsFromEntry me) expr
  return (surviving.map fun me => ⟨me, applicableDeleteEntries me allDelEntries, 0⟩, snap, schema)

def currentSnapshot (tm : TableMetadata) : Option Snapshot := tm.tmCurrentSnapshotId.bind (snapshotById tm)

/-- The schemas of the metadata, by their ids. -/
structure TableSchemas where
  tmSchemas : List (Int × Schema)
  tmCurrentSchemaId : Int

def schemaById (tm : TableSchemas) (sid : Int) : Option Schema := (tm.tmSchemas.find? fun s => s.1 = sid).map Prod.snd

def currentSchema (tm : TableSchemas) : Option Schema := schemaById tm tm.tmCurrentSchemaId

def planScanWithFilter (avro : ManifestReader) (tm : TableMetadata) (schemas : TableSchemas) (manifestListBytes : ByteString)
    (readManifestByPath : String → Except String ByteString) (expr : Expression) :
    Except String (List FileScanTask × Snapshot × Schema) := do
  let snap ← (currentSnapshot tm).elim (.error "planScanWithFilter: no current snapshot") .ok
  let schema ← (currentSchema schemas).elim (.error "planScanWithFilter: no current schema") .ok
  planScanWithFilterAt avro snap schema manifestListBytes readManifestByPath expr

end Wireform.Iceberg

/-
  Iceberg manifests (`Iceberg.Types`).

  A 64-bit integer is an `Int` in the range of `MachineInt`.  Of the files and
  entries the fields are kept that planning a commit or a scan reads or writes.
-/
import Wireform.AssocMap
import Wireform.MachineInt
import Mathlib.Data.String.Basic

namespace Wireform.Iceberg

abbrev ByteString := List UInt8

inductive ManifestStatus where
  | existing | added | deleted
  deriving DecidableEq

inductive ManifestContent where
  /-- data files -/
  | dataContent
  /-- delete files of either type -/
  | deletesContent
  deriving DecidableEq

inductive FileFormat where
  | avroFormat | parquetFormat | orcFormat
  deriving DecidableEq

/-- A data or delete file with its column statistics. -/
structure DataFile where
  content : ManifestContent
  valueCounts : AssocMap Int Int
  nullValueCounts : AssocMap Int Int
  nanValueCounts : AssocMap Int Int
  lowerBounds : AssocMap Int ByteString
  upperBounds : AssocMap Int ByteString
  /-- field ids of an equality delete -/
  equalityIds : List Int

structure ManifestEntry where
  status : ManifestStatus
  snapshotId : Option Int
  sequenceNumber : Option Int
  fileSequenceNumber : Option Int
  filePath : String
  fileFormat : FileFormat
  recordCount : Int
  fileSizeBytes : Int
  dataFile : Option DataFile

structure FieldSummary where
  containsNull : Bool
  containsNan : Option Bool
  lowerBound : Option ByteString
  upperBound : Option ByteString

/-- An entry of a manifest list. -/
structure ManifestFile where
  path : String
  length : Int
  partitionSpecId : Int
  content : ManifestContent
  sequenceNumber : Int
  minSequenceNumber : Int
  addedSnapshotId : Int
  addedDataFilesCount : Option Int
  existingDataFilesCount : Option Int
  deletedDataFilesCount : Option Int
  addedRowsCount : Option Int
  existingRowsCount : Option Int
  deletedRowsCount : Option Int
  partitions : List FieldSummary
  keyMetadata : Option ByteString
  firstRowId : Option Int

end Wireform.Iceberg

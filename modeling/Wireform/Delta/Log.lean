/-
  The transaction log of a Delta table (`Delta.Log`).

  * the actions and their decoding;
  * `parseLogLine`, `parseLogFile`: the lines of a commit file;
  * `applyAction`, `snapshotFromActions`: the replay.

  The decoder of JSON text is a parameter (`decode`).  A text is a `String`, a
  64-bit word a `Nat`.
-/
import Wireform.Delta.Json
import Wireform.Filing

namespace Wireform.Delta

abbrev ByteString := List UInt8

/-! ## Actions -/

structure AddAction where
  addPath : String
  addSize : Nat
  addModificationTime : Nat
  addDataChange : Bool
  addStats : Option String
  addPartitionValues : AssocMap String (Option String)
  addTags : AssocMap String String
  /-- the descriptor, as it is -/
  addDeletionVector : Option Value

structure RemoveAction where
  removePath : String
  removeDeletionTimestamp : Option Nat
  removeDataChange : Bool
  removeExtendedFileMetadata : Option Bool
  removeSize : Option Nat
  removePartitionValues : AssocMap String (Option String)

structure MetaDataAction where
  mdId : String
  mdName : Option String
  mdDescription : Option String
  mdFormat : Option (String × AssocMap String String)
  mdSchemaString : String
  mdPartitionColumns : List String
  mdConfiguration : AssocMap String String
  mdCreatedTime : Option Nat

structure ProtocolAction where
  pMinReaderVersion : Int
  pMinWriterVersion : Int
  pReaderFeatures : List String
  pWriterFeatures : List String

structure CommitInfoAction where
  ciTimestamp : Option Nat
  ciOperation : Option String
  ciOperationParameters : AssocMap String Value
  ciIsolationLevel : Option String
  ciIsBlindAppend : Option Bool
  ciTxnVersion : Option Nat
  ciExtra : AssocMap String Value

structure TxnAction where
  txnAppId : String
  txnVersion : Nat
  txnLastUpdated : Option Nat

structure CdcAction where
  cdcPath : String
  cdcSize : Nat
  cdcDataChange : Bool
  cdcPartitionValues : AssocMap String (Option String)
  cdcTags : AssocMap String String

inductive DeltaAction where
  | add (a : AddAction)
  | remove (r : RemoveAction)
  | metaData (md : MetaDataAction)
  | protocol (p : ProtocolAction)
  | commitInfo (ci : CommitInfoAction)
  | txn (t : TxnAction)
  | cdc (c : CdcAction)
  | other (name : String)

/-! ## Decoding -/

def parsePartitionValues : Value → Option (AssocMap String (Option String)) := parseMapOf (parseNullable parseText)

def parseTextMap : Value → Option (AssocMap String String) := parseMapOf parseText

def parseAdd : Value → Option AddAction := withObject fun o => do
  let path ← field o parseText "path"
  let size ← field o parseWord64 "size"
  let modificationTime ← field o parseWord64 "modificationTime"
  let dataChange ← field o parseBool "dataChange"
  let stats ← fieldMaybe o parseText "stats"
  let partitionValues ← fieldMaybe o parsePartitionValues "partitionValues"
  let tags ← fieldMaybe o parseTextMap "tags"
  let deletionVector ← fieldMaybe o some "deletionVector"
  some ⟨path, size, modificationTime, dataChange, stats, partitionValues.getD [], tags.getD [], deletionVector⟩

def parseRemove : Value → Option RemoveAction := withObject fun o => do
  let path ← field o parseText "path"
  let deletionTimestamp ← fieldMaybe o parseWord64 "deletionTimestamp"
  let dataChange ← fieldMaybe o parseBool "dataChange"
  let extendedFileMetadata ← fieldMaybe o parseBool "extendedFileMetadata"
  let size ← fieldMaybe o parseWord64 "size"
  let partitionValues ← fieldMaybe o parsePartitionValues "partitionValues"
  some ⟨path, deletionTimestamp, dataChange.getD true, extendedFileMetadata, size, partitionValues.getD []⟩

/-- The text entries of an object. -/
def valueObjectToMap (o : Object) : AssocMap String String := o.filterMap fun e => (parseText e.2).map fun t => (e.1, t)

def formatPair : Option Value → Option (String × AssocMap String String)
  | some (.object fo) =>
    match AssocMap.lookup "provider" fo, AssocMap.lookup "options" fo with
    | some (.string p), some (.object oo) => some (p, valueObjectToMap oo)
    | some (.string p), some _ => some (p, [])
    | _, _ => none
  | _ => none

def parseMetaData : Value → Option MetaDataAction := withObject fun o => do
  let fmt ← fieldMaybe o some "format"
  let id ← field o parseText "id"
  let name ← fieldMaybe o parseText "name"
  let description ← fieldMaybe o parseText "description"
  let schemaString ← field o parseText "schemaString"
  let partitionColumns ← fieldMaybe o (parseListOf parseText) "partitionColumns"
  let configuration ← fieldMaybe o parseTextMap "configuration"
  let createdTime ← fieldMaybe o parseWord64 "createdTime"
  some ⟨id, name, description, formatPair fmt, schemaString, partitionColumns.getD [], configuration.getD [], createdTime⟩

def parseProtocol : Value → Option ProtocolAction := withObject fun o => do
  let minReaderVersion ← field o parseInt "minReaderVersion"
  let minWriterVersion ← field o parseInt "minWriterVersion"
  let readerFeatures ← fieldMaybe o (parseListOf parseText) "readerFeatures"
  let writerFeatures ← fieldMaybe o (parseListOf parseText) "writerFeatures"
  some ⟨minReaderVersion, minWriterVersion, readerFeatures.getD [], writerFeatures.getD []⟩

def commitInfoKnown : List String :=
  ["timestamp", "operation", "operationParameters", "isolationLevel", "isBlindAppend", "txnVersion"]

def parseCommitInfo : Value → Option CommitInfoAction := withObject fun o => do
  let timestamp ← fieldMaybe o parseWord64 "timestamp"
  let operation ← fieldMaybe o parseText "operation"
  let operationParameters ← fieldMaybe o (parseMapOf some) "operationParameters"
  let isolationLevel ← fieldMaybe o parseText "isolationLevel"
  let isBlindAppend ← fieldMaybe o parseBool "isBlindAppend"
  let txnVersion ← fieldMaybe o parseWord64 "txnVersion"
  some ⟨timestamp, operation, operationParameters.getD [], isolationLevel, isBlindAppend, txnVersion,
    o.filter fun e => !commitInfoKnown.contains e.1⟩

def parseTxn : Value → Option TxnAction := withObject fun o => do
  let appId ← field o parseText "appId"
  let version ← field o parseWord64 "version"
  let lastUpdated ← fieldMaybe o parseWord64 "lastUpdated"
  some ⟨appId, version, lastUpdated⟩

def parseCdc : Value → Option CdcAction := withObject fun o => do
  let path ← field o parseText "path"
  let size ← field o parseWord64 "size"
  let dataChange ← fieldMaybe o parseBool "dataChange"
  let partitionValues ← fieldMaybe o parsePartitionValues "partitionValues"
  let tags ← fieldMaybe o parseTextMap "tags"
  some ⟨path, size, dataChange.getD false, partitionValues.getD [], tags.getD []⟩

/-! ## Lines -/

def firstKey : Object → String
  | [] => "<empty>"
  | (k, _) :: _ => k

def pluck {α : Type} (o : Object) (k : String) (parse : Value → Option α) (action : α → DeltaAction) : Option DeltaAction :=
  (field o parse k).map action

/-- The action of a line that is an object: that of the first key which is there
    and decodes. -/
def pluckAction (o : Object) : DeltaAction :=
  (pluck o "add" parseAdd .add <|> pluck o "remove" parseRemove .remove <|>
    pluck o "metaData" parseMetaData .metaData <|> pluck o "protocol" parseProtocol .protocol <|>
    pluck o "commitInfo" parseCommitInfo .commitInfo <|> pluck o "txn" parseTxn .txn <|>
    pluck o "cdc" parseCdc .cdc).getD (.other (firstKey o))

def parseLogLine (decode : ByteString → Option Value) (line : ByteString) : Option DeltaAction :=
  match decode line with
  | some (.object o) => some (pluckAction o)
  | _ => none

/-- Cuts a byte string at every `sep`. -/
def split (sep : UInt8) : ByteString → List ByteString
  | [] => [[]]
  | b :: bs =>
    if b = sep then [] :: split sep bs
    else
      match split sep bs with
      | [] => [[b]]
      | l :: ls => (b :: l) :: ls

attribute [grind =] split

def parseLogFile (decode : ByteString → Option Value) (bs : ByteString) : List DeltaAction :=
  ((split 0x0A bs).filter fun l => !l.isEmpty).filterMap (parseLogLine decode)

/-! ## Replay -/

structure TableSnapshot where
  tsProtocol : Option ProtocolAction
  tsMetaData : Option MetaDataAction
  /-- the live files by their path -/
  tsFiles : AssocMap String AddAction
  /-- the highest version of each application -/
  tsAppIds : AssocMap String Nat
  tsLastCommit : Option CommitInfoAction

def emptySnapshot : TableSnapshot := ⟨none, none, [], [], none⟩

def applyAction (s : TableSnapshot) : DeltaAction → TableSnapshot
  | .add a => { s with tsFiles := AssocMap.insert a.addPath a s.tsFiles }
  | .remove r => { s with tsFiles := AssocMap.erase r.removePath s.tsFiles }
  | .metaData md => { s with tsMetaData := some md }
  | .protocol p => { s with tsProtocol := some p }
  | .commitInfo c => { s with tsLastCommit := some c }
  | .txn t => { s with tsAppIds := AssocMap.insertWith max t.txnAppId t.txnVersion s.tsAppIds }
  | .cdc _ => s
  | .other _ => s

def snapshotFromActions (actions : List DeltaAction) : TableSnapshot := actions.foldl applyAction emptySnapshot

end Wireform.Delta

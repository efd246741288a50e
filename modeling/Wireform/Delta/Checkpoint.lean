/-
  Checkpoint files (`Delta.Checkpoint`).

  A row group holds the columns that are read from the file, one value a row;
  `rowAction` puts a row together again.  A text that is not UTF-8 throws in the
  source; there is no result here.  Of `txn` the code reads the application id
  only; `txnVersion` stands in the file beside it.
-/
import Wireform.Delta.Log

namespace Wireform.Delta

/-! ## Columns -/

structure AddCols where
  addPath : List (Option ByteString)
  addSize : List (Option Int)
  addModTime : List (Option Int)
  addDataChg : List (Option Bool)
  addStats : List (Option ByteString)
  addPartK : List (List (Option ByteString))
  addPartV : List (List (Option ByteString))
  addTagsK : List (List (Option ByteString))
  addTagsV : List (List (Option ByteString))
  addDvSt : List (Option ByteString)
  addDvPath : List (Option ByteString)
  addDvOff : List (Option Int)
  addDvSz : List (Option Int)
  addDvCard : List (Option Int)

structure RemCols where
  remPath : List (Option ByteString)
  remDelTs : List (Option Int)
  remDataChg : List (Option Bool)
  remSize : List (Option Int)
  remPartK : List (List (Option ByteString))
  remPartV : List (List (Option ByteString))
  remExt : List (Option Bool)

structure MetaCols where
  metaId : List (Option ByteString)
  metaName : List (Option ByteString)
  metaDesc : List (Option ByteString)
  metaSchema : List (Option ByteString)
  metaProv : List (Option ByteString)
  metaOptK : List (List (Option ByteString))
  metaOptV : List (List (Option ByteString))
  metaPart : List (List (Option ByteString))
  metaConfK : List (List (Option ByteString))
  metaConfV : List (List (Option ByteString))
  metaCt : List (Option Int)

structure ProtCols where
  protMinR : List (Option Int)
  protMinW : List (Option Int)
  protRdrFt : List (List (Option ByteString))
  protWrtFt : List (List (Option ByteString))

structure OtherCols where
  txnApp : List (Option ByteString)
  domDom : List (Option ByteString)
  sideP : List (Option ByteString)

structure RowGroup where
  numRows : Nat
  addCols : AddCols
  remCols : RemCols
  metaCols : MetaCols
  protCols : ProtCols
  otherCols : OtherCols
  txnVersion : List (Option Int)

/-! ## Values -/

def atIdx {α : Type} (v : List (Option α)) (i : Nat) : Option α := (v[i]?).join

def decodeText (bs : ByteString) : Option String := String.fromUTF8? ⟨bs.toArray⟩

/-- The text at a row, if there is one. -/
def textAt (v : List (Option ByteString)) (i : Nat) : Option (Option String) :=
  match atIdx v i with
  | some bs => (decodeText bs).map some
  | none => some none

/-- A 64-bit word of an integer. -/
def fromIntegral (n : Int) : Nat := (n % 2 ^ 64).toNat

def fromIntegralMaybe : Option Int → Nat
  | some n => if n < 0 then 0 else fromIntegral n
  | none => 0

/-- The entries of a row of two columns; an entry without a key is one of the
    empty key. -/
def pairEntry {α : Type} (dflt : α) (value : Option ByteString → Option α) :
    Option ByteString → Option ByteString → Option (String × α)
  | some k, v => do
    let k ← decodeText k
    let v ← value v
    some (k, v)
  | none, _ => some ("", dflt)

def decodeMapOf {α : Type} (dflt : α) (value : Option ByteString → Option α) (keysCol valsCol : List (List (Option ByteString)))
    (i : Nat) : Option (AssocMap String α) :=
  ((List.zipWith (pairEntry dflt value) (keysCol[i]?.getD []) (valsCol[i]?.getD [])).mapM id).map AssocMap.fromList

def decodeStringMap : List (List (Option ByteString)) → List (List (Option ByteString)) → Nat → Option (AssocMap String String) :=
  decodeMapOf "" fun v => v.elim (some "") decodeText

def decodeOptStringMap : List (List (Option ByteString)) → List (List (Option ByteString)) → Nat →
    Option (AssocMap String (Option String)) :=
  decodeMapOf none fun v => v.elim (some none) fun bs => (decodeText bs).map some

def decodeStringList (col : List (List (Option ByteString))) (i : Nat) : Option (List String) :=
  ((col[i]?.getD []).filterMap id).mapM decodeText

/-- The descriptor of a deletion vector as a JSON object; nothing where all its
    leaves are null. -/
def decodeDeletionVector (st pth : Option String) (off sz card : Option Int) : Option Value :=
  if st.isNone && pth.isNone && off.isNone && sz.isNone && card.isNone then none
  else some (.object (AssocMap.fromList ([
    st.map fun s => ("storageType", .string s),
    pth.map fun s => ("pathOrInlineDv", .string s),
    off.map fun n => ("offset", .number n 0),
    sz.map fun n => ("sizeInBytes", .number n 0),
    card.map fun n => ("cardinality", .number n 0)].filterMap id)))

/-! ## Rows -/

def addRow (ac : AddCols) (i : Nat) (path : ByteString) : Option AddAction := do
  let path ← decodeText path
  let stats ← textAt ac.addStats i
  let partitionValues ← decodeOptStringMap ac.addPartK ac.addPartV i
  let tags ← decodeStringMap ac.addTagsK ac.addTagsV i
  let storageType ← textAt ac.addDvSt i
  let pathOrInlineDv ← textAt ac.addDvPath i
  some
    { addPath := path
      addSize := fromIntegralMaybe (atIdx ac.addSize i)
      addModificationTime := fromIntegralMaybe (atIdx ac.addModTime i)
      addDataChange := (atIdx ac.addDataChg i).getD true
      addStats := stats
      addPartitionValues := partitionValues
      addTags := tags
      addDeletionVector := decodeDeletionVector storageType pathOrInlineDv (atIdx ac.addDvOff i) (atIdx ac.addDvSz i)
        (atIdx ac.addDvCard i) }

def removeRow (rc : RemCols) (i : Nat) (path : ByteString) : Option RemoveAction := do
  let path ← decodeText path
  let partitionValues ← decodeOptStringMap rc.remPartK rc.remPartV i
  some
    { removePath := path
      removeDeletionTimestamp := (atIdx rc.remDelTs i).map fromIntegral
      removeDataChange := (atIdx rc.remDataChg i).getD true
      removeExtendedFileMetadata := atIdx rc.remExt i
      removeSize := (atIdx rc.remSize i).map fromIntegral
      removePartitionValues := partitionValues }

def formatRow (mc : MetaCols) (i : Nat) : Option (Option (String × AssocMap String String)) :=
  match atIdx mc.metaProv i with
  | some provider => do
    let provider ← decodeText provider
    let options ← decodeStringMap mc.metaOptK mc.metaOptV i
    some (some (provider, options))
  | none => some none

def metaDataRow (mc : MetaCols) (i : Nat) (id : ByteString) : Option MetaDataAction := do
  let id ← decodeText id
  let name ← textAt mc.metaName i
  let description ← textAt mc.metaDesc i
  let format ← formatRow mc i
  let schemaString ← textAt mc.metaSchema i
  let partitionColumns ← decodeStringList mc.metaPart i
  let configuration ← decodeStringMap mc.metaConfK mc.metaConfV i
  some ⟨id, name, description, format, schemaString.getD "", partitionColumns, configuration,
    (atIdx mc.metaCt i).map fromIntegral⟩

def protocolRow (pc : ProtCols) (i : Nat) (minR : Int) : Option ProtocolAction := do
  let readerFeatures ← decodeStringList pc.protRdrFt i
  let writerFeatures ← decodeStringList pc.protWrtFt i
  some ⟨minR, (atIdx pc.protMinW i).getD 0, readerFeatures, writerFeatures⟩

/-- The first variant that is there. -/
def rowAction (rg : RowGroup) (i : Nat) : Option DeltaAction :=
  match atIdx rg.addCols.addPath i with
  | some path => (addRow rg.addCols i path).map .add
  | none =>
  match atIdx rg.remCols.remPath i with
  | some path => (removeRow rg.remCols i path).map .remove
  | none =>
  match atIdx rg.metaCols.metaId i with
  | some id => (metaDataRow rg.metaCols i id).map .metaData
  | none =>
  match atIdx rg.protCols.protMinR i with
  | some minR => (protocolRow rg.protCols i minR).map .protocol
  | none =>
  match atIdx rg.otherCols.txnApp i with
  | some _ => some (.other "txn")
  | none =>
  match atIdx rg.otherCols.domDom i with
  | some _ => some (.other "domainMetadata")
  | none =>
  match atIdx rg.otherCols.sideP i with
  | some _ => some (.other "sidecar")
  | none => some (.other "<empty-row>")

def rowGroupActions (rg : RowGroup) : Option (List DeltaAction) := (List.range rg.numRows).mapM (rowAction rg)

def decodeCheckpointFile (rgs : List RowGroup) : Option (List DeltaAction) := (rgs.mapM rowGroupActions).map List.flatten

def snapshotFromCheckpoint (rgs : List RowGroup) : Option TableSnapshot := (decodeCheckpointFile rgs).map snapshotFromActions

end Wireform.Delta

/-
  What the rows of a checkpoint state.

  `RowGroup.States`: a row has the columns of an action, and those of no other
  kind.  `rowAction_of`: the code reads such a row as the action, and a `txn` row
  as one that it ignores.
-/
import Wireform.Delta.Checkpoint
import Wireform.Delta.Lines

namespace Wireform.Delta

/-- The UTF-8 bytes of a text. -/
def encodeText (s : String) : ByteString := s.toByteArray.data.toList

@[simp] theorem decodeText_encodeText (s : String) : decodeText (encodeText s) = some s := by
  have hbytes : (⟨(encodeText s).toArray⟩ : ByteArray) = s.toByteArray := by simp [encodeText]
  rw [decodeText, hbytes, String.fromUTF8?, dif_pos s.isValidUTF8]
  rfl

/-! ## Columns -/

/-- The column has the text at a row. -/
def TextAt (v : List (Option ByteString)) (i : Nat) (s : Option String) : Prop := atIdx v i = s.map encodeText

/-- Two columns have the entries of a map at a row. -/
def MapAt {α : Type} (value : α → Option ByteString) (keys vals : List (List (Option ByteString))) (i : Nat)
    (m : AssocMap String α) : Prop :=
  m.Ascending ∧ keys[i]?.getD [] = m.map (fun e => some (encodeText e.1)) ∧ vals[i]?.getD [] = m.map fun e => value e.2

def OptStringMapAt : List (List (Option ByteString)) → List (List (Option ByteString)) → Nat →
    AssocMap String (Option String) → Prop := MapAt fun v => v.map encodeText

def StringMapAt : List (List (Option ByteString)) → List (List (Option ByteString)) → Nat → AssocMap String String → Prop :=
  MapAt fun v => some (encodeText v)

def StringListAt (col : List (List (Option ByteString))) (i : Nat) (xs : List String) : Prop :=
  col[i]?.getD [] = xs.map fun s => some (encodeText s)

section
variable {v : List (Option ByteString)} {keys vals col : List (List (Option ByteString))} {i : Nat}
  {s : Option String}

theorem textAt_of (h : TextAt v i s) : textAt v i = some s := by
  unfold textAt
  rw [h]
  cases s <;> simp

/-- A map of its own entries. -/
theorem fromList_of_ascending {β : Type} {m : AssocMap String β} (h : m.Ascending) : AssocMap.fromList m = m := by
  refine (AssocMap.ascending_fromList m).ext h fun k => Option.ext fun v => ?_
  rw [← h.mem_iff]
  exact ⟨AssocMap.mem_of_lookup_fromList, AssocMap.lookup_fromList_of_mem h.nodup_keys⟩

theorem decodeMapOf_of {α : Type} {dflt : α} {value : Option ByteString → Option α} {put : α → Option ByteString}
    (hvalue : ∀ a, value (put a) = some a) {m : AssocMap String α} (h : MapAt put keys vals i m) :
    decodeMapOf dflt value keys vals i = some m := by
  obtain ⟨hm, hkeys, hvals⟩ := h
  have hentries (xs : AssocMap String α) : (List.zipWith (pairEntry dflt value) (xs.map fun e => some (encodeText e.1))
      (xs.map fun e => put e.2)).mapM id = some xs := by
    induction xs with
    | nil => rfl
    | cons e xs ih =>
      rw [List.map_cons, List.map_cons, List.zipWith_cons_cons, List.mapM_cons, ih]
      simp [pairEntry, hvalue]
  rw [decodeMapOf, hkeys, hvals, hentries, Option.map_some, fromList_of_ascending hm]

theorem decodeStringMap_of {m : AssocMap String String} (h : StringMapAt keys vals i m) : decodeStringMap keys vals i = some m :=
  decodeMapOf_of (fun a => by simp) h

theorem decodeOptStringMap_of {m : AssocMap String (Option String)} (h : OptStringMapAt keys vals i m) :
    decodeOptStringMap keys vals i = some m :=
  decodeMapOf_of (fun a => by cases a <;> simp) h

theorem decodeStringList_of {xs : List String} (h : StringListAt col i xs) : decodeStringList col i = some xs := by
  rw [decodeStringList, h]
  clear h
  induction xs with
  | nil => rfl
  | cons x xs ih =>
    have hcons : ((some (encodeText x) :: xs.map fun s => some (encodeText s)).filterMap id) =
        encodeText x :: (xs.map fun s => some (encodeText s)).filterMap id := rfl
    rw [List.map_cons, hcons, List.mapM_cons, ih]
    simp

end

/-! ## Rows -/

/-- The columns of an `add`. -/
structure AddCols.States (ac : AddCols) (i : Nat) (a : AddAction) : Prop where
  path : TextAt ac.addPath i (some a.addPath)
  size : atIdx ac.addSize i = some (a.addSize : Int) ∧ a.addSize < 2 ^ 63
  modTime : atIdx ac.addModTime i = some (a.addModificationTime : Int) ∧ a.addModificationTime < 2 ^ 63
  dataChg : atIdx ac.addDataChg i = some a.addDataChange
  stats : TextAt ac.addStats i a.addStats
  part : OptStringMapAt ac.addPartK ac.addPartV i a.addPartitionValues
  tags : StringMapAt ac.addTagsK ac.addTagsV i a.addTags
  /-- the descriptor is the object of the leaves that are there -/
  dv : ∃ st pth, TextAt ac.addDvSt i st ∧ TextAt ac.addDvPath i pth ∧ a.addDeletionVector =
    decodeDeletionVector st pth (atIdx ac.addDvOff i) (atIdx ac.addDvSz i) (atIdx ac.addDvCard i)

/-- The columns of a `metaData`. -/
structure MetaCols.States (mc : MetaCols) (i : Nat) (md : MetaDataAction) : Prop where
  id : TextAt mc.metaId i (some md.mdId)
  name : TextAt mc.metaName i md.mdName
  desc : TextAt mc.metaDesc i md.mdDescription
  prov : TextAt mc.metaProv i (md.mdFormat.map Prod.fst)
  options : ∀ f, md.mdFormat = some f → StringMapAt mc.metaOptK mc.metaOptV i f.2
  schema : TextAt mc.metaSchema i (some md.mdSchemaString)
  part : StringListAt mc.metaPart i md.mdPartitionColumns
  conf : StringMapAt mc.metaConfK mc.metaConfV i md.mdConfiguration
  ct : (atIdx mc.metaCt i).map fromIntegral = md.mdCreatedTime

/-- The columns of a `protocol`. -/
structure ProtCols.States (pc : ProtCols) (i : Nat) (p : ProtocolAction) : Prop where
  minR : atIdx pc.protMinR i = some p.pMinReaderVersion
  minW : atIdx pc.protMinW i = some p.pMinWriterVersion
  rdrFt : StringListAt pc.protRdrFt i p.pReaderFeatures
  wrtFt : StringListAt pc.protWrtFt i p.pWriterFeatures

/-- The row states the action, one of the four kinds of a checkpoint. -/
def RowGroup.States (rg : RowGroup) (i : Nat) : LogAction → Prop
  | .add a => rg.addCols.States i a
  | .metaData md => atIdx rg.addCols.addPath i = none ∧ atIdx rg.remCols.remPath i = none ∧ rg.metaCols.States i md
  | .protocol p => atIdx rg.addCols.addPath i = none ∧ atIdx rg.remCols.remPath i = none ∧ atIdx rg.metaCols.metaId i = none ∧
    rg.protCols.States i p
  | .txn t => atIdx rg.addCols.addPath i = none ∧ atIdx rg.remCols.remPath i = none ∧ atIdx rg.metaCols.metaId i = none ∧
    atIdx rg.protCols.protMinR i = none ∧ TextAt rg.otherCols.txnApp i (some t.txnAppId) ∧
    atIdx rg.txnVersion i = some (t.txnVersion : Int)
  | _ => False

/-- The action that the code reads in a row. -/
def LogAction.row : LogAction → DeltaAction
  | .txn _ => .other "txn"
  | x => x.delta

section
variable {rg : RowGroup} {rgs : List RowGroup} {i : Nat} {α : LogAction}

theorem fromIntegralMaybe_of {n : Nat} {x : Option Int} (h : x = some (n : Int) ∧ n < 2 ^ 63) : fromIntegralMaybe x = n := by
  rw [h.1, fromIntegralMaybe, if_neg (by omega), fromIntegral]
  omega

theorem addRow_of {ac : AddCols} {a : AddAction} (h : ac.States i a) : addRow ac i (encodeText a.addPath) = some a := by
  obtain ⟨st, pth, hst, hpth, hdv⟩ := h.dv
  obtain ⟨path, size, time, change, stats, values, tags, dv⟩ := a
  simp only at hdv
  subst hdv
  simp [addRow, textAt_of h.stats, decodeOptStringMap_of h.part, decodeStringMap_of h.tags, textAt_of hst, textAt_of hpth,
    fromIntegralMaybe_of h.size, fromIntegralMaybe_of h.modTime, h.dataChg]

theorem formatRow_of {mc : MetaCols} {md : MetaDataAction} (h : mc.States i md) : formatRow mc i = some md.mdFormat := by
  unfold formatRow
  rw [show atIdx mc.metaProv i = _ from h.prov]
  cases hf : md.mdFormat with
  | none => rfl
  | some f => simp [decodeStringMap_of (h.options f hf)]

theorem metaDataRow_of {mc : MetaCols} {md : MetaDataAction} (h : mc.States i md) :
    metaDataRow mc i (encodeText md.mdId) = some md := by
  simp [metaDataRow, textAt_of h.name, textAt_of h.desc, formatRow_of h, textAt_of h.schema, decodeStringList_of h.part,
    decodeStringMap_of h.conf, h.ct]

theorem protocolRow_of {pc : ProtCols} {p : ProtocolAction} (h : pc.States i p) :
    protocolRow pc i p.pMinReaderVersion = some p := by
  simp [protocolRow, decodeStringList_of h.rdrFt, decodeStringList_of h.wrtFt, h.minW]

/-- **A row is read as the action it states**, a `txn` as one that is ignored. -/
theorem rowAction_of (h : rg.States i α) : rowAction rg i = some α.row := by
  unfold rowAction
  cases α with
  | add a =>
    have hpath : atIdx rg.addCols.addPath i = some (encodeText a.addPath) := h.path
    simp [hpath, addRow_of h, LogAction.row, LogAction.delta]
  | metaData md =>
    obtain ⟨hadd, hrem, hmd⟩ := h
    have hid : atIdx rg.metaCols.metaId i = some (encodeText md.mdId) := hmd.id
    simp [hadd, hrem, hid, metaDataRow_of hmd, LogAction.row, LogAction.delta]
  | protocol p =>
    obtain ⟨hadd, hrem, hmeta, hp⟩ := h
    simp [hadd, hrem, hmeta, hp.minR, protocolRow_of hp, LogAction.row, LogAction.delta]
  | txn t =>
    obtain ⟨hadd, hrem, hmeta, hprot, htxn, -⟩ := h
    have happ : atIdx rg.otherCols.txnApp i = some (encodeText t.txnAppId) := htxn
    simp [hadd, hrem, hmeta, hprot, happ, LogAction.row]
  | remove r dv => exact h.elim
  | commitInfo ci => exact h.elim
  | cdc c => exact h.elim
  | other name => exact h.elim

/-! ## Files -/

/-- The rows of a row group state the actions, in their order. -/
def RowGroup.Has (rg : RowGroup) (rows : List LogAction) : Prop := List.Forall₂ rg.States (List.range rg.numRows) rows

/-- The rows of a checkpoint, by row group. -/
def CheckpointRows (rgs : List RowGroup) (rows : List LogAction) : Prop :=
  ∃ groups, List.Forall₂ RowGroup.Has rgs groups ∧ rows = groups.flatten

theorem mapM_of_forall₂ {β γ δ : Type} {f : β → Option δ} {g : γ → δ} {xs : List β} {ys : List γ}
    (h : List.Forall₂ (fun x y => f x = some (g y)) xs ys) : xs.mapM f = some (ys.map g) := by
  induction h with
  | nil => rfl
  | cons hx _ ih =>
    rw [List.mapM_cons, hx, ih]
    rfl

theorem rowGroupActions_of {rows : List LogAction} (h : rg.Has rows) : rowGroupActions rg = some (rows.map LogAction.row) :=
  mapM_of_forall₂ (h.imp fun _ _ => rowAction_of)

/-- **The actions of a checkpoint are those of its rows.** -/
theorem decodeCheckpointFile_of {rows : List LogAction} (h : CheckpointRows rgs rows) :
    decodeCheckpointFile rgs = some (rows.map LogAction.row) := by
  obtain ⟨groups, hgroups, rfl⟩ := h
  rw [decodeCheckpointFile, mapM_of_forall₂ (hgroups.imp fun _ _ => rowGroupActions_of), Option.map_some, List.map_flatten]

end

end Wireform.Delta

/-
  Commit files and their lines.

  * `LogAction`: an action of a commit, as the log has it; a removal names the
    deletion vector of its file.  `LogAction.delta` is what the code keeps of it.
  * `LineOf`: a line is well formed and states the action;
  * `parseLogLine_of`, `parseLogFile_of`: no such line is skipped.
-/
import Wireform.Delta.Log

namespace Wireform.Delta

/-- An action of a commit. -/
inductive LogAction where
  | add (a : AddAction)
  /-- with the deletion vector of the file that is removed -/
  | remove (r : RemoveAction) (deletionVector : Option Value)
  | metaData (md : MetaDataAction)
  | protocol (p : ProtocolAction)
  | commitInfo (ci : CommitInfoAction)
  | txn (t : TxnAction)
  | cdc (c : CdcAction)
  | other (name : String)

/-- The action as the code has it: a removal has no deletion vector. -/
def LogAction.delta : LogAction → DeltaAction
  | .add a => .add a
  | .remove r _ => .remove r
  | .metaData md => .metaData md
  | .protocol p => .protocol p
  | .commitInfo ci => .commitInfo ci
  | .txn t => .txn t
  | .cdc c => .cdc c
  | .other name => .other name

/-! ## Well-formed lines -/

def IsText (v : Value) (s : String) : Prop := v = .string s

def IsBool (v : Value) (b : Bool) : Prop := v = .bool b

/-- The number of a 64-bit word. -/
def IsWord64 (v : Value) (n : Nat) : Prop := v.IsNat n ∧ n < 2 ^ 64

def IsPartitionValues : Value → AssocMap String (Option String) → Prop := Value.IsMap (Value.IsNullable IsText)

def IsTextMap : Value → AssocMap String String → Prop := Value.IsMap IsText

/-- The object of an `add`. -/
structure AddJson (o : Object) (a : AddAction) : Prop where
  path : HasField o "path" IsText a.addPath
  size : HasField o "size" IsWord64 a.addSize
  modificationTime : HasField o "modificationTime" IsWord64 a.addModificationTime
  dataChange : HasField o "dataChange" IsBool a.addDataChange
  stats : MayField o "stats" IsText a.addStats
  partitionValues : ∃ m, MayField o "partitionValues" IsPartitionValues m ∧ a.addPartitionValues = m.getD []
  tags : ∃ m, MayField o "tags" IsTextMap m ∧ a.addTags = m.getD []
  deletionVector : MayField o "deletionVector" Eq a.addDeletionVector

/-- The object of a `remove`. -/
structure RemoveJson (o : Object) (r : RemoveAction) (deletionVector : Option Value) : Prop where
  path : HasField o "path" IsText r.removePath
  deletionTimestamp : MayField o "deletionTimestamp" IsWord64 r.removeDeletionTimestamp
  dataChange : ∃ b, MayField o "dataChange" IsBool b ∧ r.removeDataChange = b.getD true
  extendedFileMetadata : MayField o "extendedFileMetadata" IsBool r.removeExtendedFileMetadata
  size : MayField o "size" IsWord64 r.removeSize
  partitionValues : ∃ m, MayField o "partitionValues" IsPartitionValues m ∧ r.removePartitionValues = m.getD []
  deletionVector : MayField o "deletionVector" Eq deletionVector

/-- The keys of the actions that are known. -/
def actionKeys : List String := ["add", "remove", "metaData", "protocol", "commitInfo", "txn", "cdc"]

/-- The line is an object with one key, and states the action. -/
def LineOf (decode : ByteString → Option Value) (line : ByteString) : LogAction → Prop
  | .add a => ∃ o, decode line = some (.object [("add", .object o)]) ∧ AddJson o a
  | .remove r dv => ∃ o, decode line = some (.object [("remove", .object o)]) ∧ RemoveJson o r dv
  | .metaData md => ∃ v, decode line = some (.object [("metaData", v)]) ∧ parseMetaData v = some md
  | .protocol p => ∃ v, decode line = some (.object [("protocol", v)]) ∧ parseProtocol v = some p
  | .commitInfo ci => ∃ v, decode line = some (.object [("commitInfo", v)]) ∧ parseCommitInfo v = some ci
  | .txn t => ∃ v, decode line = some (.object [("txn", v)]) ∧ parseTxn v = some t
  | .cdc c => ∃ v, decode line = some (.object [("cdc", v)]) ∧ parseCdc v = some c
  | .other name => ∃ v, decode line = some (.object [(name, v)]) ∧ name ∉ actionKeys

/-! ## The decoders -/

section
variable {v : Value} {s : String} {b : Bool} {n : Nat} {o : Object} {a : AddAction} {r : RemoveAction}
  {dv : Option Value}

theorem parseText_of (v : Value) (s : String) (h : IsText v s) : parseText v = some s := by
  cases h
  rfl

theorem parseBool_of (v : Value) (b : Bool) (h : IsBool v b) : parseBool v = some b := by
  cases h
  rfl

theorem parseWord64_of (v : Value) (n : Nat) (h : IsWord64 v n) : parseWord64 v = some n := parseWord64_of_isNat h.1 h.2

theorem parsePartitionValues_of (v : Value) (m : AssocMap String (Option String)) (h : IsPartitionValues v m) :
    parsePartitionValues v = some m := parseMapOf_of (fun _ _ h' => parseNullable_of parseText_of h') h

theorem parseTextMap_of (v : Value) (m : AssocMap String String) (h : IsTextMap v m) : parseTextMap v = some m :=
  parseMapOf_of parseText_of h

theorem some_of (v w : Value) (h : v = w) : some v = some w := congrArg some h

theorem parseAdd_of (h : AddJson o a) : parseAdd (.object o) = some a := by
  obtain ⟨m, hm, hvalues⟩ := h.partitionValues
  obtain ⟨t, ht, htags⟩ := h.tags
  obtain ⟨path, size, time, change, stats, values, tags, dv⟩ := a
  simp only at hvalues htags
  subst hvalues htags
  simp only [parseAdd, withObject, field_of parseText_of h.path, field_of parseWord64_of h.size,
    field_of parseWord64_of h.modificationTime, field_of parseBool_of h.dataChange, fieldMaybe_of parseText_of h.stats,
    fieldMaybe_of parsePartitionValues_of hm, fieldMaybe_of parseTextMap_of ht, fieldMaybe_of some_of h.deletionVector,
    Option.bind_eq_bind, Option.bind_some]

theorem parseRemove_of (h : RemoveJson o r dv) : parseRemove (.object o) = some r := by
  obtain ⟨m, hm, hvalues⟩ := h.partitionValues
  obtain ⟨c, hc, hchange⟩ := h.dataChange
  obtain ⟨path, time, change, extended, size, values⟩ := r
  simp only at hvalues hchange
  subst hvalues hchange
  simp only [parseRemove, withObject, field_of parseText_of h.path, fieldMaybe_of parseWord64_of h.deletionTimestamp,
    fieldMaybe_of parseBool_of hc, fieldMaybe_of parseBool_of h.extendedFileMetadata, fieldMaybe_of parseWord64_of h.size,
    fieldMaybe_of parsePartitionValues_of hm, Option.bind_eq_bind, Option.bind_some]

end

/-! ## Lines -/

section
variable {decode : ByteString → Option Value} {line : ByteString} {α : LogAction}

theorem field_single {β : Type} (f : Value → Option β) (k k' : String) (v : Value) :
    field [(k', v)] f k = if k = k' then f v else none := by
  unfold field
  rw [AssocMap.lookup]
  split_ifs <;> rfl

/-- **A well-formed line is read as the action it states**, up to the deletion
    vector of a removal. -/
theorem parseLogLine_of (h : LineOf decode line α) : parseLogLine decode line = some α.delta := by
  unfold parseLogLine
  cases α with
  | add a =>
    obtain ⟨o, hdecode, ho⟩ := h
    simp [hdecode, pluckAction, pluck, field_single, parseAdd_of ho, LogAction.delta]
  | remove r dv =>
    obtain ⟨o, hdecode, ho⟩ := h
    simp [hdecode, pluckAction, pluck, field_single, parseRemove_of ho, LogAction.delta]
  | metaData md =>
    obtain ⟨v, hdecode, hv⟩ := h
    simp [hdecode, pluckAction, pluck, field_single, hv, LogAction.delta]
  | protocol p =>
    obtain ⟨v, hdecode, hv⟩ := h
    simp [hdecode, pluckAction, pluck, field_single, hv, LogAction.delta]
  | commitInfo ci =>
    obtain ⟨v, hdecode, hv⟩ := h
    simp [hdecode, pluckAction, pluck, field_single, hv, LogAction.delta]
  | txn t =>
    obtain ⟨v, hdecode, hv⟩ := h
    simp [hdecode, pluckAction, pluck, field_single, hv, LogAction.delta]
  | cdc c =>
    obtain ⟨v, hdecode, hv⟩ := h
    simp [hdecode, pluckAction, pluck, field_single, hv, LogAction.delta]
  | other name =>
    obtain ⟨v, hdecode, hname⟩ := h
    have hpluck {β : Type} {k : String} (hk : k ∈ actionKeys) (parse : Value → Option β) (action : β → DeltaAction) :
        pluck [(name, v)] k parse action = none := by
      rw [pluck, field_single, if_neg fun (hname' : k = name) => hname (hname' ▸ hk)]
      rfl
    rw [hdecode]
    simp only [pluckAction]
    rw [hpluck (by simp [actionKeys]), hpluck (by simp [actionKeys]), hpluck (by simp [actionKeys]),
      hpluck (by simp [actionKeys]), hpluck (by simp [actionKeys]), hpluck (by simp [actionKeys]),
      hpluck (by simp [actionKeys])]
    rfl

end

/-! ## Files -/

/-- The lines, each with its newline. -/
def unlines (lines : List ByteString) : ByteString := lines.flatMap fun l => l ++ [0x0A]

/-- The file has the lines; the last one may have no newline. -/
def FileOf (file : ByteString) (lines : List ByteString) : Prop :=
  (∀ l ∈ lines, l ≠ [] ∧ 0x0A ∉ l) ∧ (file = unlines lines ∨ file ++ [0x0A] = unlines lines)

section
variable {sep : UInt8} {bs file : ByteString} {lines : List ByteString} {decode : ByteString → Option Value}
  {acts : List LogAction}

theorem split_ne_nil (sep : UInt8) (bs : ByteString) : split sep bs ≠ [] := by
  cases bs with
  | nil => simp [split]
  | cons b bs =>
    rw [split]
    split_ifs
    · simp
    · split <;> simp

theorem split_line {l : ByteString} (h : sep ∉ l) (rest : ByteString) : split sep (l ++ sep :: rest) = l :: split sep rest := by
  induction l with
  | nil => simp [split]
  | cons b l ih =>
    rw [List.mem_cons, not_or] at h
    rw [List.cons_append, split, if_neg (Ne.symm h.1), ih h.2]

theorem split_snoc (sep : UInt8) (bs : ByteString) : split sep (bs ++ [sep]) = split sep bs ++ [[]] := by
  induction bs with
  | nil => simp [split]
  | cons b bs ih =>
    rw [List.cons_append, split, ih, split]
    split_ifs
    · rfl
    · cases h : split sep bs with
      | nil => exact absurd h (split_ne_nil sep bs)
      | cons l ls => rfl

/-- The lines that are not empty. -/
def fullLines (bs : ByteString) : List ByteString := (split 0x0A bs).filter fun l => !l.isEmpty

theorem fullLines_unlines (h : ∀ l ∈ lines, l ≠ [] ∧ 0x0A ∉ l) : fullLines (unlines lines) = lines := by
  induction lines with
  | nil => rfl
  | cons l lines ih =>
    obtain ⟨hne, hsep⟩ := h l List.mem_cons_self
    have hcons : unlines (l :: lines) = l ++ 0x0A :: unlines lines := by simp [unlines]
    have hfull : fullLines (unlines (l :: lines)) = l :: fullLines (unlines lines) := by
      rw [fullLines, hcons, split_line hsep, List.filter_cons_of_pos (by simpa using hne)]
      rfl
    rw [hfull, ih fun l' hl' => h l' (List.mem_cons_of_mem _ hl')]

theorem FileOf.fullLines (h : FileOf file lines) : fullLines file = lines := by
  obtain ⟨hlines, rfl | hfile⟩ := h
  · exact fullLines_unlines hlines
  · have hsnoc : Delta.fullLines (file ++ [0x0A]) = Delta.fullLines file := by
      simp [Delta.fullLines, split_snoc]
    rw [← hsnoc, hfile, fullLines_unlines hlines]

/-- **The actions of a file are those of its lines**, in their order. -/
theorem parseLogFile_of (hfile : FileOf file lines) (h : List.Forall₂ (LineOf decode) lines acts) :
    parseLogFile decode file = acts.map LogAction.delta := by
  rw [parseLogFile, show (split 0x0A file).filter _ = lines from hfile.fullLines]
  clear hfile
  induction h with
  | nil => rfl
  | cons hline _ ih => rw [List.filterMap_cons_some (parseLogLine_of hline), ih, List.map_cons]

end

end Wireform.Delta
